import DoubleEntry.Core.LTS
import DoubleEntry.L3Ledger.Journal

/-!
# Runs of the journal

Any sequence of the journal's calls, succeeding or failing (`calls`). `Effect`
lists what one call can do; from it follow the two facts every run keeps:

* `Registered`: every posting on file is on a registered account.
* `Extends j j'`: `j'` is a later state of `j`. The log grows by entries booked
  after the watermark `j` had, the registry grows, the watermark does not move
  back, periods keep their range and the chain keeps its seals.

A seal's ingredients are thereby frozen, and its balances stay provable
(`sealed_balance_stays_provable`).

**Results.**
* `after_effect`, `Effect.extends`: one call, and what it does to what is derived.
* `extends_of_run`: every run.
* `sealPeriod_eq_ok`: what a successful seal leaves behind.
* `sealed_balance_stays_provable`: in every later state, for every key, with no assumption on
  the hash.
-/
namespace DoubleEntry.L3.Journal

open DoubleEntry.Core DoubleEntry.L1 DoubleEntry.L2

variable {H : Type} [Blake3 H] [DecidableEq H] {P : Scale}

/-- Ten calls of a journal and of its account registry: `record` of a draft, `define_period`,
`transition_period`, `seal_period`, `register`, `close`, `reopen`, `set_limit`, `clear` and
`reset_clearing`. Not among them are `record_validated` and `record_batch`, whose entries were
sealed before (`Mutation`), and the writes through `with_policy`, `calendar_mut` and
`accounts_mut` (`Operation`). -/
inductive Call (H : Type) (P : Scale)
  | record (draft : Entry H .draft P)
  | definePeriod (period : Period)
  | transitionPeriod (id : PeriodId) (target : PeriodState)
  | sealPeriod (id : PeriodId)
  | register (account : Account)
  | close (id : AccountId) (on : Date)
  | reopen (id : AccountId)
  | setLimit (id : AccountId) (limit : BalanceLimit)
  | clear (clearing : Clearing P)
  | resetClearing (id : ClearingId) (on : Date)

/-- The value of a call, or what there was before a refused one. -/
def keep {ε α : Type} (x : Except ε α) (a : α) : α :=
  match x with
  | .ok b => b
  | .error _ => a

theorem keep_cases {ε α : Type} (x : Except ε α) (a : α) : keep x a = a ∨ x = .ok (keep x a) := by
  cases x
  · exact .inl rfl
  · exact .inr rfl

/-- The journal after a call. -/
def after (j : Journal H P) : Call H P → Journal H P
  | .record draft => keep ((j.record draft).map Prod.snd) j
  | .definePeriod period => keep (j.definePeriod period) j
  | .transitionPeriod id target => keep (j.transitionPeriod id target) j
  | .sealPeriod id => (j.sealPeriod id).2
  | .register account => { j with accounts := keep ((j.accounts.register account).map Prod.snd) j.accounts }
  | .close id on => { j with accounts := keep (j.accounts.close id on) j.accounts }
  | .reopen id => { j with accounts := keep (j.accounts.reopen id) j.accounts }
  | .setLimit id limit => { j with accounts := keep (j.accounts.setLimit id limit) j.accounts }
  | .clear clearing => keep (j.clear clearing) j
  | .resetClearing id on => keep (j.resetClearing id on) j

/-- The calls on a new journal of `ledger`, under any policy. -/
def calls (ledger : LedgerId) : LTS (Journal H P) (Call H P) where
  init j := ∃ policy, j = (new ledger).withPolicy policy
  step j k j' := j' = j.after k

/-- The journal after a list of calls. -/
def afterAll (j : Journal H P) (ks : List (Call H P)) : Journal H P := ks.foldl after j

theorem run_afterAll (ledger : LedgerId) (j : Journal H P) (ks : List (Call H P)) :
    (calls ledger).Run j ks (j.afterAll ks) := by
  induction ks generalizing j with
  | nil => exact .nil j
  | cons k ks ih => exact .cons rfl (ih _)

theorem reachable_afterAll (ledger : LedgerId) (policy : LedgerPolicy) (ks : List (Call H P)) :
    (calls ledger).Reachable (((new ledger).withPolicy policy : Journal H P).afterAll ks) :=
  ⟨_, ks, ⟨policy, rfl⟩, run_afterAll ledger _ ks⟩

/-! ## What one call does -/

/-- What a call can do to a journal. -/
inductive Effect (j : Journal H P) : Call H P → Journal H P → Prop
  /-- A refused call, a retry, or one that touches master data or clearings only. -/
  | data {k : Call H P} {accounts : AccountRegistry} {clearings : ClearingRegister P}
      (grows : j.accounts.Grows accounts) : Effect j k { j with accounts := accounts, clearings := clearings }
  | recorded {draft : Entry H .draft P} {entry : Entry H .balanced P} {balances : TrialBalance P}
      (sealed : draft.seal j.context = .ok entry) : Effect j (.record draft) (j.store entry balances)
  | defined {period : Period} (ok : j.calendar.define period = .ok (j.calendar.add period)) :
      Effect j (.definePeriod period) { j with calendar := j.calendar.add period }
  | moved {id : PeriodId} {target : PeriodState} {q : Period} (hq : j.calendar.get id = some q)
      (permitted : PeriodCalendar.permitted q.state target = true) :
      Effect j (.transitionPeriod id target) { j with calendar := j.calendar.store id { q with state := target } }
  | sealed {id : PeriodId} {q : Period} {closing : TrialBalance P}
      (sealable : j.calendar.checkSealable id = .ok q) (closed : j.trialBalanceThroughDate q.end = .ok closing)
      (pushed : j.seals.push (j.buildSeal q closing id) = .ok (j.seals.add (j.buildSeal q closing id))) :
      Effect j (.sealPeriod id)
        { j with
          seals := j.seals.add (j.buildSeal q closing id)
          calendar := j.calendar.store id { q with state := .sealed } }

theorem Effect.same (j : Journal H P) (k : Call H P) : Effect j k j := .data (.refl _)

theorem Effect.ofKeep {j : Journal H P} {k : Call H P} {ε : Type} {x : Except ε (Journal H P)}
    (h : ∀ j', x = .ok j' → Effect j k j') : Effect j k (keep x j) := by
  rcases keep_cases x j with e | e
  · rw [e]; exact .same j k
  · exact h _ e

theorem Effect.ofAccounts {j : Journal H P} {k : Call H P} {ε : Type} {x : Except ε AccountRegistry}
    (h : ∀ r, x = .ok r → j.accounts.Grows r) : Effect j k { j with accounts := keep x j.accounts } := by
  rcases keep_cases x j.accounts with e | e
  · rw [e]; exact .same j k
  · exact .data (h _ e)

theorem after_effect (j : Journal H P) (k : Call H P) : Effect j k (j.after k) := by
  cases k with
  | record draft =>
    refine Effect.ofKeep fun j' h => ?_
    obtain ⟨⟨recorded, j₁⟩, hr, rfl⟩ := map_eq_ok.1 h
    rcases record_eq_ok hr with rfl | ⟨entry, balances, hseal, -, rfl⟩
    · exact .same _ _
    · exact .recorded hseal
  | definePeriod period =>
    refine Effect.ofKeep fun j' h => ?_
    obtain ⟨calendar, hd, rfl⟩ := definePeriod_eq_ok.1 h
    obtain ⟨-, -, rfl⟩ := PeriodCalendar.define_eq_ok.1 hd
    exact .defined hd
  | transitionPeriod id target =>
    refine Effect.ofKeep fun j' h => ?_
    obtain ⟨calendar, ht, rfl⟩ := transitionPeriod_eq_ok.1 h
    obtain ⟨q, hq, hp, rfl⟩ := PeriodCalendar.transition_eq_ok.1 ht
    exact .moved hq hp
  | sealPeriod id =>
    rcases j.sealPeriod_cases id with ⟨e, h⟩ | ⟨q, closing, hs, hc, hp, h⟩
    · rw [show j.after (.sealPeriod id) = j from congrArg Prod.snd h]
      exact .same j _
    · rw [show j.after (.sealPeriod id) = _ from congrArg Prod.snd h]
      exact .sealed hs hc hp
  | register account =>
    refine Effect.ofAccounts fun r hr => ?_
    obtain ⟨⟨id, r'⟩, h, rfl⟩ := map_eq_ok.1 hr
    exact AccountRegistry.grows_register h
  | close id on => exact Effect.ofAccounts fun r hr => AccountRegistry.grows_close hr
  | reopen id => exact Effect.ofAccounts fun r hr => AccountRegistry.grows_reopen hr
  | setLimit id limit => exact Effect.ofAccounts fun r hr => AccountRegistry.grows_setLimit hr
  | clear clearing =>
    refine Effect.ofKeep fun j' h => ?_
    obtain ⟨clearings, -, rfl⟩ := map_eq_ok.1 h
    exact .data (.refl _)
  | resetClearing id on =>
    refine Effect.ofKeep fun j' h => ?_
    obtain ⟨clearings, -, rfl⟩ := map_eq_ok.1 h
    exact .data (.refl _)

/-! ## What every run keeps -/

/-- Every posting on file is on a registered account. -/
def Registered (j : Journal H P) : Prop :=
  ∀ e ∈ j.entries, ∀ p ∈ e.postings, p.account.index < j.accounts.len

theorem registered_stable (ledger : LedgerId) :
    (calls ledger : LTS (Journal H P) _).Inductive Registered where
  init := by
    rintro _ ⟨policy, rfl⟩ e he
    cases he
  step := by
    intro j k j' hj hk
    obtain rfl : j' = j.after k := hk
    have heff := j.after_effect k
    generalize j.after k = j' at heff ⊢
    cases heff with
    | data grows => exact fun e he p hp => (hj e he p hp).trans_le grows.len_le
    | @recorded draft entry balances hseal =>
      intro e he
      rcases List.mem_append.1 (show e ∈ j.entries ++ [entry] from he) with he | he
      · exact hj e he
      · rw [List.mem_singleton.1 he]
        exact (Entry.sealed_of_seal hseal).registered
    | defined => exact hj
    | moved => exact hj
    | sealed => exact hj

/-- Booked after a watermark. -/
def After (watermark : Option Date) (e : Entry H .balanced P) : Prop := ∀ d ∈ watermark, d < e.bookingDate

/-- `j'` is a later state of `j`. -/
structure Extends (j j' : Journal H P) : Prop where
  entries : ∃ later, j'.entries = j.entries ++ later ∧ ∀ e ∈ later, After j.calendar.sealedThrough e
  accounts : j.accounts.Grows j'.accounts
  watermark : PeriodCalendar.NotBefore j.calendar.sealedThrough j'.calendar.sealedThrough
  ranges : ∀ id p, j.calendar.get id = some p →
    ∃ p', j'.calendar.get id = some p' ∧ p'.start = p.start ∧ p'.end = p.end
  seals : ∀ id s, j.seals.get id = some s → j'.seals.get id = some s

omit [Blake3 H] [DecidableEq H] in
theorem After.mono {a b : Option Date} (h : PeriodCalendar.NotBefore a b) {e : Entry H .balanced P}
    (he : After b e) : After a e := fun d hd => by
  obtain ⟨d', hd', hle⟩ := h d hd
  exact hle.trans_lt (he d' hd')

omit [Blake3 H] [DecidableEq H] in
theorem after_of_accepts {c : PeriodCalendar} {e : Entry H .balanced P} (h : c.accepts e.bookingDate = true) :
    After c.sealedThrough e := by
  intro d hd
  by_contra hle
  have hany : c.sealedThrough.any (e.bookingDate ≤ ·) = true := by
    rw [Option.mem_def.1 hd]
    exact decide_eq_true (not_lt.1 hle)
  simp [PeriodCalendar.accepts, PeriodCalendar.stateOn, hany, PeriodState.acceptsPostings] at h

omit [DecidableEq H] in
theorem Extends.refl (j : Journal H P) : Extends j j where
  entries := ⟨[], (List.append_nil _).symm, fun _ he => by cases he⟩
  accounts := .refl _
  watermark := .refl _
  ranges _ p hp := ⟨p, hp, rfl, rfl⟩
  seals _ _ h := h

omit [DecidableEq H] in
theorem Extends.trans {j j' j'' : Journal H P} (h : Extends j j') (h' : Extends j' j'') : Extends j j'' where
  entries := by
    obtain ⟨l, hl, hla⟩ := h.entries
    obtain ⟨l', hl', hla'⟩ := h'.entries
    refine ⟨l ++ l', by rw [hl', hl, List.append_assoc], fun e he => ?_⟩
    rcases List.mem_append.1 he with he | he
    · exact hla e he
    · exact (hla' e he).mono h.watermark
  accounts := h.accounts.trans h'.accounts
  watermark := h.watermark.trans h'.watermark
  ranges id p hp := by
    obtain ⟨p', hp', hs, he⟩ := h.ranges id p hp
    obtain ⟨p'', hp'', hs', he'⟩ := h'.ranges id p' hp'
    exact ⟨p'', hp'', hs'.trans hs, he'.trans he⟩
  seals id s hs := h'.seals id s (h.seals id s hs)

omit [Blake3 H] [DecidableEq H] in
theorem ranges_store {c : PeriodCalendar} {id : PeriodId} {q : Period} (hq : c.get id = some q)
    (target : PeriodState) (id' : PeriodId) (p : Period) (hp : c.get id' = some p) :
    ∃ p', (c.store id { q with state := target }).get id' = some p' ∧ p'.start = p.start ∧ p'.end = p.end := by
  rw [PeriodCalendar.get_store]
  split
  · rename_i e
    obtain rfl : q = p := by simpa [← e, hq] using hp
    exact ⟨_, rfl, rfl, rfl⟩
  · exact ⟨p, hp, rfl, rfl⟩

theorem Effect.extends {j j' : Journal H P} {k : Call H P} (h : Effect j k j') : Extends j j' := by
  cases h with
  | data grows => exact { Extends.refl j with accounts := grows }
  | @recorded draft entry balances hseal =>
    refine { Extends.refl j with entries := ⟨[entry], rfl, fun e he => ?_⟩ }
    rw [List.mem_singleton.1 he]
    exact after_of_accepts (Entry.sealed_of_seal hseal).accepted
  | @defined period ok =>
    refine { Extends.refl j with watermark := PeriodCalendar.notBefore_markSealedThrough _ _, ranges := ?_ }
    intro id p hp
    have hne : period.id ≠ id := fun e => by
      have hn := (PeriodCalendar.define_eq_ok.1 ok).1
      rw [e, hp] at hn
      cases hn
    exact ⟨p, by rw [PeriodCalendar.get_add, if_neg hne, hp], rfl, rfl⟩
  | @moved id target q hq permitted =>
    exact { Extends.refl j with
      watermark := PeriodCalendar.notBefore_markSealedThrough _ _
      ranges := ranges_store hq target }
  | @sealed id q closing sealable closed pushed =>
    have hq := (PeriodCalendar.checkSealable_eq_ok.1 sealable).1
    refine { Extends.refl j with
      watermark := PeriodCalendar.notBefore_markSealedThrough _ _
      ranges := ranges_store hq .sealed
      seals := fun id' s hs => ?_ }
    rw [SealChain.get_add, hs]
    rfl

/-- **Every run extends the journal.** -/
theorem extends_of_run {ledger : LedgerId} {j j' : Journal H P} {ks : List (Call H P)}
    (r : (calls ledger).Run j ks j') : Extends j j' :=
  r.rel (I := fun _ => True) (fun _ _ _ _ _ => trivial) (R := Extends) Extends.refl
    (fun _ _ _ => Extends.trans) (fun j k _ _ st => st ▸ (j.after_effect k).extends) trivial

/-! ## Sealed balances -/

theorem sealPeriod_eq_ok {j : Journal H P} {period : PeriodId} {s : Seal H}
    (h : (j.sealPeriod period).1 = .ok s) :
    ∃ q closing, j.calendar.get period = some q ∧ j.trialBalanceThroughDate q.end = .ok closing ∧
      s = j.buildSeal q closing period ∧ s.isSelfConsistent = true ∧
      (j.sealPeriod period).2.entries = j.entries ∧ (j.sealPeriod period).2.accounts = j.accounts ∧
      (j.sealPeriod period).2.seals.get period = some s ∧
      (j.sealPeriod period).2.calendar = j.calendar.store period { q with state := .sealed } ∧
      q.end ∈ (j.sealPeriod period).2.calendar.sealedThrough := by
  rcases j.sealPeriod_cases period with ⟨e, he⟩ | ⟨q, closing, hs, hc, hp, he⟩
  · rw [he] at h
    cases h
  · rw [he] at h ⊢
    cases h
    obtain ⟨hq, -, -, hafter⟩ := PeriodCalendar.checkSealable_eq_ok.1 hs
    obtain ⟨-, hself, hnew⟩ := SealChain.push_eq_ok hp
    have hnew : j.seals.get period = none := hnew
    refine ⟨q, closing, hq, hc, rfl, hself, rfl, rfl, ?_, rfl, ?_⟩
    · rw [SealChain.get_add, hnew, Option.none_or]
      exact if_pos rfl
    · exact PeriodCalendar.markSealedThrough_of_after rfl hafter

/-- **A sealed balance stays provable.** A seal taken in a reachable journal
answers for every key in every later state: the balance the closing trial
balance held, with a proof that verifies, if the key had a row; no row, for an
account registered by then; not yet registered, for a later one. -/
theorem sealed_balance_stays_provable {ledger : LedgerId} {j j' : Journal H P} {period : PeriodId} {s : Seal H}
    {ks : List (Call H P)} (hj : (calls ledger).Reachable j) (hs : (j.sealPeriod period).1 = .ok s)
    (hr : (calls ledger).Run (j.sealPeriod period).2 ks j') :
    ∃ q closing, j.calendar.get period = some q ∧ j.trialBalanceThroughDate q.end = .ok closing ∧
      s.accounts.size = j.accounts.len ∧ ∀ key : BalanceKey,
        (∀ b, closing.get key = some b → ∃ proof, j'.proveSealedBalance period key = .ok (.proven proof) ∧
          proof.verify = true ∧ proof.seal = s ∧ proof.balance.key = key ∧ proof.balance.balance = b) ∧
        (closing.get key = none → key.account.index < s.accounts.size →
          j'.proveSealedBalance period key = .ok .noRow) ∧
        (s.accounts.size ≤ key.account.index → j'.proveSealedBalance period key = .ok .notYetRegistered) := by
  obtain ⟨q, closing, hq, hc, hbuild, hself, hentries, haccounts, hget, hcal, hmark⟩ := sealPeriod_eq_ok hs
  have hext := extends_of_run hr
  have hsize : s.accounts.size = j.accounts.len := by
    rw [hbuild]
    exact congrArg TreeHead.size (AccountRegistry.commitment_eq j.accounts)
  have hperiod : s.period = period := by rw [hbuild]; rfl
  -- the range of the sealed period is still on file
  obtain ⟨q', hq', -, hend⟩ := hext.ranges period { q with state := .sealed } (by
    rw [hcal, PeriodCalendar.get_store, if_pos rfl])
  -- the entries booked through its end are still the same
  have hclosing : j'.trialBalanceThroughDate q'.end = .ok closing := by
    obtain ⟨later, hlater, hla⟩ := hext.entries
    rw [hend, trialBalanceThroughDate, hlater, hentries]
    exact (closingBalance_append fun e he => hla e he _ hmark).trans hc
  have hgrows : j.accounts.Grows j'.accounts := haccounts ▸ hext.accounts
  have hprove : ∀ key, j'.proveSealedBalance period key =
      (SealedBalance.assemble s closing j'.accounts key).mapError .sealedBalance := fun key => by
    simp only [proveSealedBalance, hext.seals period s hget, hperiod, hq', hclosing]
  refine ⟨q, closing, hq, hc, hsize, fun key => ?_⟩
  have hans := SealedBalance.assemble_answers key hself (by rw [hbuild]; rfl) (by rw [hbuild]; rfl) hgrows
  rw [hprove, hsize]
  cases ha : SealedBalance.assemble s closing j'.accounts key with
  | error e => rw [ha] at hans; exact hans.elim
  | ok outcome =>
    rw [ha] at hans
    cases outcome with
    | notYetRegistered =>
      have hge : j.accounts.len ≤ key.account.index := hans
      refine ⟨fun b hb => ?_, fun _ hlt => absurd hlt (not_lt.2 hge), fun _ => rfl⟩
      -- a row comes from a posting, and its account was registered
      obtain ⟨e, he, p, hp, hk⟩ := exists_posting_of_row hc hb
      have hreg := (registered_stable ledger).reachable hj e he p hp
      rw [← hk] at hge
      exact absurd hreg (not_lt.2 hge)
    | noRow =>
      obtain ⟨hlt, hnone⟩ := hans
      refine ⟨fun b hb => ?_, fun _ _ => rfl, fun hge => absurd hlt (not_lt.2 hge)⟩
      rw [hnone] at hb
      cases hb
    | proven proof =>
      obtain ⟨hseal, hv, hkey, hlt, hrow⟩ := hans
      refine ⟨fun b hb => ⟨proof, rfl, hv, hseal, hkey, ?_⟩, fun hnone => ?_, fun hge => absurd hlt (not_lt.2 hge)⟩
      · rw [hrow] at hb
        exact Option.some.inj hb
      · rw [hrow] at hnone
        cases hnone

/-- Two accounts, a sale in March, and March closing. -/
def marchClosing : Journal Preimage cents :=
  ((new books).withPolicy .permissive).afterAll
    [.register cash, .register sales, .definePeriod march, .record saleOfMarch, .transitionPeriod march.id .closing]

/-- A sale in April, and the cash account closed. -/
def aprilCalls : List (Call Preimage cents) :=
  [.definePeriod april, .record saleOfApril, .close cashId april.end]

set_option maxRecDepth 10000 in
/-- Not vacuous: March's cash balance is proven after `aprilCalls`. -/
theorem march_cash_provable :
    ∃ proof, ((marchClosing.sealPeriod march.id).2.afterAll aprilCalls).proveSealedBalance march.id
      ⟨cashId, .eur, .settled⟩ = .ok (.proven proof) ∧ proof.verify = true := by
  have hok : (marchClosing.sealPeriod march.id).1.toOption.isSome = true := by decide
  have hget : marchClosing.calendar.get march.id = some { march with state := .closing } := by decide
  have hrow : ((marchClosing.trialBalanceThroughDate march.end).toOption.bind
      fun tb => tb.get ⟨cashId, .eur, .settled⟩).isSome = true := by decide
  obtain ⟨s, hs⟩ := Option.isSome_iff_exists.1 hok
  obtain ⟨q, closing, hq, hc, -, h⟩ := sealed_balance_stays_provable (reachable_afterAll books .permissive _)
    (toOption_eq_some.1 hs) (run_afterAll books _ aprilCalls)
  obtain rfl : { march with state := .closing } = q := Option.some.inj (hget.symm.trans hq)
  have hclosing : (marchClosing.trialBalanceThroughDate march.end).toOption = some closing := toOption_eq_some.2 hc
  rw [hclosing] at hrow
  obtain ⟨b, hb⟩ := Option.isSome_iff_exists.1 hrow
  obtain ⟨proof, hp, hv, -⟩ := (h _).1 b hb
  exact ⟨proof, hp, hv⟩

end DoubleEntry.L3.Journal
