import DoubleEntry.L4Store.Retries
import DoubleEntry.L5Concurrency.SealedBooks

/-!
# Drafts validated before a seal

`MemoryStore` holds its mutex for one call, and `Entry::seal` is none: a client
validates against the calendar the store reports, and appends later. In between
another client may seal the period, and `append` looks at no calendar.

What has to be seen to is less than with a SQL store, where a seal takes several
reads (`Drains`): when a period is sealed, nothing booked by its end is validated
and still to be appended, and a period with a seal is not declared again in another
state. Then the entries behind a seal stay (`booksStay_of_run`), in memory and, by
`SealedBooks`, in SQLite (`validated_books_stay`).

**Assumptions.** `Drains` in memory, `Drained` on SQLite, of each step of the run; the drafts are
any, and clients validate them whenever they like.

**Results.**
* `seal_cases`: a new seal is of a period that was sealable.
* `Settled.after_sealed`: a draft validated now is booked after every sealed period.
* `Closed.step`, `settled_stable`: one step.
* `validated_books_stay`, `appended_behind_seal`: runs, and a draft that is behind.
-/
namespace DoubleEntry.L5

open DoubleEntry.Core DoubleEntry.L1 DoubleEntry.L2 DoubleEntry.L3 DoubleEntry.L4

namespace InMemory

structure St (H : Type) [Blake3 H] (P : Scale) where
  journal : Journal H P
  /-- Validated and not dropped. -/
  held : List (Entry H .balanced P)

inductive Lbl (H : Type) (P : Scale)
  | validate (draft : Entry H .draft P) (ctx : SealContext)
  | drop (e : Entry H .balanced P)
  | call (k : MemoryStore.Call H P)

variable {H : Type} [Blake3 H] [DecidableEq H] {P : Scale}

/-- Any number of clients: each call is one step, and appends what some client holds. -/
def step (s : St H P) : Lbl H P → Option (St H P)
  | .validate draft ctx => some { s with held := s.held ++ (draft.seal ctx).toOption.toList }
  | .drop e => some { s with held := s.held.filter (· ≠ e) }
  | .call k =>
    if MemoryStore.submitted k ⊆ s.held then some { s with journal := MemoryStore.after s.journal k } else none

/-- An empty store, under any policy. -/
def system : LTS (St H P) (Lbl H P) :=
  .ofFn (fun s => ∃ ledger policy, s = ⟨(Journal.new ledger).withPolicy policy, []⟩) step

/-- Validated, and not on file. -/
def St.pending (s : St H P) : List (Entry H .balanced P) :=
  s.held.filter fun e => ∀ x ∈ s.journal.entries, x.idempotencyKey ≠ e.idempotencyKey

omit [DecidableEq H] in
theorem mem_pending {s : St H P} {e : Entry H .balanced P} :
    e ∈ s.pending ↔ e ∈ s.held ∧ ∀ x ∈ s.journal.entries, x.idempotencyKey ≠ e.idempotencyKey := by
  simp [St.pending]

/-! ## Drained steps -/

/-- The calendar of a snapshot, or one rebuilt from `periods`. -/
def Reports (c c' : PeriodCalendar) : Prop := c' = c ∨ (PeriodCalendar.fromPeriods c.iter).toOption = some c'

/-- What the clients have to see to at one step. -/
def Drains (s : St H P) : Lbl H P → Prop
  | .validate _ ctx => Reports s.journal.calendar ctx.calendar
  | .call (.sealPeriod id) => ∀ p ∈ (s.journal.calendar.checkSealable id).toOption, ∀ e ∈ s.pending, p.end < e.bookingDate
  | .call (.definePeriod p) => p.start ≤ p.end ∧ ((∃ x ∈ s.journal.seals.seals, x.period = p.id) → p.state = .sealed)
  | _ => True

omit [DecidableEq H] in
instance (s : St H P) : DecidablePred (Drains s)
  | .validate _ ctx => inferInstanceAs (Decidable (ctx.calendar = s.journal.calendar ∨
      (PeriodCalendar.fromPeriods s.journal.calendar.iter).toOption = some ctx.calendar))
  | .call (.sealPeriod id) => inferInstanceAs (Decidable (∀ p ∈ (s.journal.calendar.checkSealable id).toOption,
      ∀ e ∈ s.pending, p.end < e.bookingDate))
  | .call (.definePeriod p) => inferInstanceAs (Decidable (p.start ≤ p.end ∧
      ((∃ x ∈ s.journal.seals.seals, x.period = p.id) → p.state = .sealed)))
  | .drop _ | .call (.registerAccount _) | .call (.append _) | .call (.transitionPeriod _ _) | .call (.clear _)
  | .call (.resetClearing _ _) => inferInstanceAs (Decidable True)

/-- The runs whose steps are drained. -/
def drained : LTS (St H P) (Lbl H P) := system.restrict Drains

/-! ## What a call does -/

/-- What a call does to the calendar and the chain. -/
inductive BooksStep (j : Journal H P) : MemoryStore.Call H P → PeriodCalendar → SealChain H → Prop
  | keep {k : MemoryStore.Call H P} : BooksStep j k j.calendar j.seals
  | define {p : Period} (ok : j.calendar.define p = .ok (j.calendar.add p)) :
      BooksStep j (.definePeriod p) (j.calendar.add p) j.seals
  | redeclare {p q : Period} (hq : j.calendar.get p.id = some q) (hs : q.start = p.start) (he : q.end = p.end) :
      BooksStep j (.definePeriod p) (j.calendar.store p.id p) j.seals
  | move {id : PeriodId} {target : PeriodState} {q : Period} (hq : j.calendar.get id = some q)
      (permitted : PeriodCalendar.permitted q.state target = true) :
      BooksStep j (.transitionPeriod id target) (j.calendar.store id { q with state := target }) j.seals
  | sealed {id : PeriodId} {q : Period} {closing : TrialBalance P} (ok : j.calendar.checkSealable id = .ok q)
      (hc : closingBalance j.entries q.end = .ok closing) :
      BooksStep j (.sealPeriod id) (j.calendar.store id { q with state := .sealed })
        (j.seals.add (j.buildSeal q closing id))

theorem booksStep (j : Journal H P) (k : MemoryStore.Call H P) :
    BooksStep j k (MemoryStore.after j k).calendar (MemoryStore.after j k).seals := by
  cases k with
  | registerAccount record =>
    rcases Journal.keep_cases (MemoryStore.registerAccount j record) j with h | h
    · rw [show MemoryStore.after j (.registerAccount record) = j from h]
      exact .keep
    · obtain ⟨accounts, -, h⟩ := map_eq_ok.1 h
      rw [show MemoryStore.after j (.registerAccount record) = _ from h.symm]
      exact .keep
  | append batch =>
    have hbooks := (j.recordBatch_frame batch).1
    rw [show (MemoryStore.after j (.append batch)).calendar = j.calendar from hbooks.calendar,
      show (MemoryStore.after j (.append batch)).seals = j.seals from hbooks.seals]
    exact .keep
  | definePeriod p =>
    rcases Journal.keep_cases (MemoryStore.definePeriod j p) j with h | h
    · rw [show MemoryStore.after j (.definePeriod p) = j from h]
      exact .keep
    · obtain ⟨c, hc, h⟩ := map_eq_ok.1 h
      rw [show MemoryStore.after j (.definePeriod p) = _ from h.symm]
      rcases PeriodCalendar.ensure_eq_ok.1 hc with hd | ⟨q, hq, hs, he, rfl⟩
      · obtain ⟨-, -, rfl⟩ := PeriodCalendar.define_eq_ok.1 hd
        exact .define hd
      · exact .redeclare hq hs he
  | transitionPeriod id target =>
    rcases Journal.keep_cases (j.transitionPeriod id target) j with h | h
    · rw [show MemoryStore.after j (.transitionPeriod id target) = j from h]
      exact .keep
    · obtain ⟨c, hc, h⟩ := Journal.transitionPeriod_eq_ok.1 h
      rw [show MemoryStore.after j (.transitionPeriod id target) = _ from h]
      obtain ⟨q, hq, hp, rfl⟩ := PeriodCalendar.transition_eq_ok.1 hc
      exact .move hq hp
  | sealPeriod id =>
    rcases j.sealPeriod_cases id with ⟨e, h⟩ | ⟨q, closing, hs, hc, -, h⟩
    · rw [show MemoryStore.after j (.sealPeriod id) = j from congrArg Prod.snd h]
      exact .keep
    · rw [show MemoryStore.after j (.sealPeriod id) = _ from congrArg Prod.snd h]
      exact .sealed hs hc
  | clear clearing =>
    have heff := j.after_effect (.clear clearing)
    show BooksStep j _ (j.after (.clear clearing)).calendar (j.after (.clear clearing)).seals
    generalize j.after (.clear clearing) = j' at heff ⊢
    cases heff
    exact .keep
  | resetClearing id on =>
    have heff := j.after_effect (.resetClearing id on)
    show BooksStep j _ (j.after (.resetClearing id on)).calendar (j.after (.resetClearing id on)).seals
    generalize j.after (.resetClearing id on) = j' at heff ⊢
    cases heff
    exact .keep

namespace BooksStep

variable {j : Journal H P} {k : MemoryStore.Call H P} {c : PeriodCalendar} {chain : SealChain H}

omit [DecidableEq H] in
theorem notBefore (h : BooksStep j k c chain) : PeriodCalendar.NotBefore j.calendar.sealedThrough c.sealedThrough := by
  cases h with
  | keep => exact .refl _
  | _ => exact PeriodCalendar.notBefore_markSealedThrough _ _

omit [DecidableEq H] in
theorem wellFormed (h : BooksStep j k c chain) (hw : j.calendar.WellFormed)
    (hk : ∀ p, k = .definePeriod p → p.start ≤ p.end) : c.WellFormed := by
  cases h with
  | keep => exact hw
  | define ok => exact hw.add (hk _ rfl) ok
  | redeclare hq hs he => exact hw.store hq (hw.id_eq _ _ hq).symm hs.symm he.symm
  | move hq => exact hw.store hq rfl rfl rfl
  | sealed ok => exact hw.store (PeriodCalendar.checkSealable_eq_ok.1 ok).1 rfl rfl rfl

omit [DecidableEq H] in
/-- A sealed period stays sealed, unless it is declared again in another state. -/
theorem sealed_stays (h : BooksStep j k c chain) {id : PeriodId} {r : Period} (hr : j.calendar.get id = some r)
    (hs : r.state = .sealed) (hk : ∀ p, k = .definePeriod p → p.id = id → p.state = .sealed) :
    ∃ r', c.get id = some r' ∧ r'.state = .sealed ∧ r'.end = r.end := by
  -- a period overwritten under its own identifier
  have hstore : ∀ {id' : PeriodId} {q q' : Period}, j.calendar.get id' = some q → (id' = id → q'.state = .sealed) →
      q'.end = q.end → ∃ r', (j.calendar.store id' q').get id = some r' ∧ r'.state = .sealed ∧ r'.end = r.end := by
    intro id' q q' hq hstate hend
    rw [PeriodCalendar.get_store]
    by_cases heq : id' = id
    · subst heq
      obtain rfl : q = r := Option.some.inj (hq.symm.trans hr)
      exact ⟨q', if_pos rfl, hstate rfl, hend⟩
    · exact ⟨r, by rw [if_neg heq]; exact hr, hs, rfl⟩
  cases h with
  | keep => exact ⟨r, hr, hs, rfl⟩
  | @define p ok =>
    have hn := (PeriodCalendar.define_eq_ok.1 ok).1
    have hne : p.id ≠ id := by
      intro heq
      rw [heq, hr] at hn
      cases hn
    exact ⟨r, by rw [PeriodCalendar.get_add, if_neg hne]; exact hr, hs, rfl⟩
  | redeclare hq _ he => exact hstore hq (fun heq => hk _ rfl heq) he.symm
  | @move id' target q hq permitted =>
    refine hstore hq (fun heq => ?_) rfl
    subst heq
    obtain rfl : q = r := Option.some.inj (hq.symm.trans hr)
    rw [hs, PeriodCalendar.permitted_not_from_sealed] at permitted
    cases permitted
  | sealed ok => exact hstore (PeriodCalendar.checkSealable_eq_ok.1 ok).1 (fun _ => rfl) rfl

omit [DecidableEq H] in
/-- A new seal is that of a period `seal_period` found sealable, over the balances closed by its end. -/
theorem seal_cases (h : BooksStep j k c chain) {x : Seal H} (hx : x ∈ chain.seals) : x ∈ j.seals.seals ∨
    ∃ id q closing, k = .sealPeriod id ∧ j.calendar.checkSealable id = .ok q ∧
      closingBalance j.entries q.end = .ok closing ∧ c = j.calendar.store id { q with state := .sealed } ∧
      x = j.buildSeal q closing id := by
  cases h with
  | @sealed id q closing ok hc =>
    rcases List.mem_append.1 hx with hx | hx
    · exact .inl hx
    · exact .inr ⟨id, q, closing, rfl, ok, hc, rfl, List.mem_singleton.1 hx⟩
  | _ => exact .inl hx

omit [DecidableEq H] in
theorem seals_stay (h : BooksStep j k c chain) {x : Seal H} (hx : x ∈ j.seals.seals) : x ∈ chain.seals := by
  cases h with
  | sealed ok hc => exact List.mem_append_left _ hx
  | _ => exact hx

end BooksStep

/-! ## The invariant -/

/-- `x` closed the period `r`, and nothing pending reaches behind it. -/
structure Closed (s : St H P) (x : Seal H) (r : Period) : Prop where
  onFile : s.journal.calendar.get x.period = some r
  state : r.state = .sealed
  watermark : ∃ d ∈ s.journal.calendar.sealedThrough, r.end ≤ d
  pending : ∀ e ∈ s.pending, r.end < e.bookingDate
  closing : ∃ tb, closingBalance s.journal.entries r.end = .ok tb ∧ x.trialBalance = trialBalanceHead tb

/-- The seals of the chain are final. -/
structure Settled (s : St H P) : Prop where
  mapped : s.journal.Mapped
  calendar : s.journal.calendar.WellFormed
  seals : ∀ x ∈ s.journal.seals.seals, ∃ r, Closed s x r

omit [DecidableEq H] in
theorem settled_initial (ledger : LedgerId) (policy : LedgerPolicy) :
    Settled (⟨(Journal.new ledger).withPolicy policy, []⟩ : St H P) where
  mapped := Journal.mapped_new ledger policy
  calendar := PeriodCalendar.wellFormed_new
  seals _ hx := absurd hx List.not_mem_nil

omit [DecidableEq H] in
/-- A draft validated against a calendar the store reports is booked after every sealed period. -/
theorem Settled.after_sealed {s : St H P} (h : Settled s) {draft : Entry H .draft P} {ctx : SealContext}
    {e : Entry H .balanced P} (hd : Reports s.journal.calendar ctx.calendar) (ok : draft.seal ctx = .ok e) {x : Seal H}
    {r : Period} (hr : Closed s x r) : r.end < e.bookingDate := by
  have hafter := Journal.after_of_accepts (Entry.sealed_of_seal ok).accepted
  have hmark : ∃ d ∈ ctx.calendar.sealedThrough, r.end ≤ d := by
    rcases hd with hsame | hrebuilt
    · rw [hsame]
      exact hr.watermark
    · obtain ⟨-, hwater, hget⟩ := h.calendar.fromPeriods_get (fun _ => h.calendar.mem_iter) (toOption_eq_some.1 hrebuilt)
      exact hwater.covers x.period r ((hget _).trans hr.onFile) hr.state
  obtain ⟨d, hd, hle⟩ := hmark
  exact hle.trans_lt (hafter d hd)

/-! ## One step -/

/-- `s'` is a later state: what joined was pending, and what is pending was or has just been validated. -/
structure Joined (s s' : St H P) (l : Lbl H P) : Prop where
  entries : ∃ later, s'.journal.entries = s.journal.entries ++ later ∧ ∀ e ∈ later, e ∈ s.pending
  pending : ∀ e ∈ s'.pending, e ∈ s.pending ∨ ∃ draft ctx, l = .validate draft ctx ∧ draft.seal ctx = .ok e
  mapped : s'.journal.Mapped

theorem joined_of_step {s s' : St H P} {l : Lbl H P} (h : s.journal.Mapped) (st : step s l = some s') : Joined s s' l := by
  have hsame : s'.journal = s.journal → ∃ later, s'.journal.entries = s.journal.entries ++ later ∧
      ∀ e ∈ later, e ∈ s.pending := fun heq => ⟨[], by rw [heq, List.append_nil], fun e he => absurd he List.not_mem_nil⟩
  cases l with
  | validate draft ctx =>
    cases st
    refine ⟨hsame rfl, fun e he => ?_, h⟩
    obtain ⟨hheld, hkey⟩ := mem_pending.1 he
    rcases List.mem_append.1 hheld with hold | hnew
    · exact .inl (mem_pending.2 ⟨hold, hkey⟩)
    · exact .inr ⟨draft, ctx, rfl, toOption_eq_some.1 (Option.mem_toList.1 hnew)⟩
  | drop e =>
    cases st
    refine ⟨hsame rfl, fun e' he' => ?_, h⟩
    obtain ⟨hheld, hkey⟩ := mem_pending.1 he'
    exact .inl (mem_pending.2 ⟨(List.mem_filter.1 hheld).1, hkey⟩)
  | call k =>
    simp only [step] at st
    split at st
    · rename_i hheld
      cases st
      obtain ⟨o, ho, hsub⟩ := MemoryStore.exists_operation s.journal k
      obtain ⟨later, hentries, hlater⟩ := h.operate_entries o
      rw [← ho] at hentries
      refine ⟨⟨later, hentries, fun e he => ?_⟩, fun e he => ?_, ?_⟩
      · obtain ⟨hin, hkey⟩ := hlater e he
        exact mem_pending.2 ⟨hheld (hsub ▸ hin), hkey⟩
      · obtain ⟨hin, hkey⟩ := mem_pending.1 he
        refine .inl (mem_pending.2 ⟨hin, fun x hx => hkey x ?_⟩)
        show x ∈ (MemoryStore.after s.journal k).entries
        rw [hentries]
        exact List.mem_append_left _ hx
      · show (MemoryStore.after s.journal k).Mapped
        rw [ho]
        exact h.operate o
    · cases st

/-- The journal stays, or is the one after a call. -/
theorem journal_of_step {s s' : St H P} {l : Lbl H P} (st : step s l = some s') :
    s'.journal = s.journal ∨ ∃ k, l = .call k ∧ s'.journal = MemoryStore.after s.journal k := by
  cases l with
  | validate draft ctx =>
    cases st
    exact .inl rfl
  | drop e =>
    cases st
    exact .inl rfl
  | call k =>
    simp only [step] at st
    split at st
    · cases st
      exact .inr ⟨k, rfl, rfl⟩
    · cases st

omit [DecidableEq H] in
/-- What joins after a period's end leaves its closing balances. -/
theorem Joined.closing {s s' : St H P} {l : Lbl H P} (h : Joined s s' l) {stop : Date}
    (hp : ∀ e ∈ s.pending, stop < e.bookingDate) :
    closingBalance s'.journal.entries stop = closingBalance s.journal.entries stop := by
  obtain ⟨later, hentries, hlater⟩ := h.entries
  rw [hentries]
  exact closingBalance_append fun e he => hp e (hlater e he)

/-- A drained step keeps a closed period closed. -/
theorem Closed.step {s s' : St H P} {l : Lbl H P} (hi : Settled s) (hd : Drains s l) (st : InMemory.step s l = some s')
    {x : Seal H} (hx : x ∈ s.journal.seals.seals) {r : Period} (hr : Closed s x r) :
    ∃ r', Closed s' x r' ∧ r'.end = r.end := by
  have hj := joined_of_step hi.mapped st
  have hpending : ∀ e ∈ s'.pending, r.end < e.bookingDate := by
    intro e he
    rcases hj.pending e he with hold | ⟨draft, ctx, rfl, ok⟩
    · exact hr.pending e hold
    · exact hi.after_sealed hd ok hr
  have hclosing : closingBalance s'.journal.entries r.end = closingBalance s.journal.entries r.end :=
    hj.closing hr.pending
  rcases journal_of_step st with hsame | ⟨k, rfl, hafter⟩
  · refine ⟨r, ⟨?_, hr.state, ?_, hpending, ?_⟩, rfl⟩
    · rw [hsame]
      exact hr.onFile
    · rw [hsame]
      exact hr.watermark
    · rw [hclosing]
      exact hr.closing
  · have hbooks := booksStep s.journal k
    rw [← hafter] at hbooks
    have hk : ∀ p, k = .definePeriod p → p.id = x.period → p.state = .sealed := by
      intro p hp hid
      subst hp
      exact hd.2 ⟨x, hx, hid.symm⟩
    obtain ⟨r', hr', hs', he'⟩ := hbooks.sealed_stays hr.onFile hr.state hk
    obtain ⟨d, hdm, hle⟩ := hr.watermark
    obtain ⟨d', hdm', hle'⟩ := hbooks.notBefore d hdm
    refine ⟨r', ⟨hr', hs', ⟨d', hdm', ?_⟩, ?_, ?_⟩, he'⟩
    · rw [he']
      exact hle.trans hle'
    · rw [he']
      exact hpending
    · rw [he', hclosing]
      exact hr.closing

/-- The period of a new seal is closed. -/
theorem closed_of_seal {s s' : St H P} {k : MemoryStore.Call H P} (hi : Settled s) (hd : Drains s (.call k))
    (st : InMemory.step s (.call k) = some s') {id : PeriodId} {q : Period} {closing : TrialBalance P}
    (hk : k = .sealPeriod id) (ok : s.journal.calendar.checkSealable id = .ok q)
    (hc : closingBalance s.journal.entries q.end = .ok closing)
    (hcal : s'.journal.calendar = s.journal.calendar.store id { q with state := .sealed }) :
    Closed s' (s.journal.buildSeal q closing id) { q with state := .sealed } := by
  subst hk
  have hj := joined_of_step hi.mapped st
  have hpending : ∀ e ∈ s.pending, q.end < e.bookingDate := hd q (toOption_eq_some.2 ok)
  constructor
  · rw [hcal]
    exact PeriodCalendar.get_store.trans (if_pos rfl)
  · rfl
  · obtain ⟨-, -, -, hafter⟩ := PeriodCalendar.checkSealable_eq_ok.1 ok
    rw [hcal]
    exact ⟨q.end, PeriodCalendar.markSealedThrough_of_after rfl hafter, le_rfl⟩
  · intro e he
    rcases hj.pending e he with hold | ⟨draft, ctx, hl, -⟩
    · exact hpending e hold
    · cases hl
  · exact ⟨closing, (hj.closing hpending).trans hc, rfl⟩

/-- **A drained step keeps the books closed.** -/
theorem settled_stable : (drained : LTS (St H P) (Lbl H P)).Stable Settled := by
  intro s l s' hi st
  obtain ⟨st, hd⟩ := LTS.restrict_step.1 st
  have hstep : InMemory.step s l = some s' := st
  have hold : ∀ x ∈ s.journal.seals.seals, ∃ r, Closed s' x r := by
    intro x hx
    obtain ⟨r, hr⟩ := hi.seals x hx
    obtain ⟨r', hr', -⟩ := hr.step hi hd hstep hx
    exact ⟨r', hr'⟩
  refine ⟨(joined_of_step hi.mapped hstep).mapped, ?_, ?_⟩
  · rcases journal_of_step hstep with hsame | ⟨k, rfl, hafter⟩
    · rw [hsame]
      exact hi.calendar
    · rw [hafter]
      refine (booksStep s.journal k).wellFormed hi.calendar fun p hp => ?_
      subst hp
      exact hd.1
  · intro x hx
    rcases journal_of_step hstep with hsame | ⟨k, rfl, hafter⟩
    · exact hold x (hsame ▸ hx)
    · have hbooks := booksStep s.journal k
      rw [← hafter] at hbooks
      rcases hbooks.seal_cases hx with hx | ⟨id, q, closing, hk, ok, hc, hcal, rfl⟩
      · exact hold x hx
      · exact ⟨_, closed_of_seal hi hd hstep hk ok hc hcal⟩

/-! ## Runs -/

theorem settled_of_reachable {s : St H P} (h : drained.Reachable s) : Settled s := by
  refine LTS.Inductive.reachable (T := drained) (I := Settled) ⟨?_, settled_stable⟩ h
  intro s hs
  obtain ⟨ledger, policy, rfl⟩ := hs
  exact settled_initial ledger policy

/-- The entries behind the seals of `s` are those `u` has behind them. -/
structure Later (s u : St H P) : Prop where
  seals : ∀ x ∈ s.journal.seals.seals, x ∈ u.journal.seals.seals
  closed : ∀ x ∈ s.journal.seals.seals, ∀ r, Closed s x r → ∃ r', Closed u x r' ∧ r'.end = r.end
  entries : ∃ later, u.journal.entries = s.journal.entries ++ later ∧
    ∀ x ∈ s.journal.seals.seals, ∀ r, Closed s x r → ∀ e ∈ later, r.end < e.bookingDate

omit [DecidableEq H] in
theorem Later.refl (s : St H P) : Later s s where
  seals _ hx := hx
  closed _ _ r hr := ⟨r, hr, rfl⟩
  entries := ⟨[], by rw [List.append_nil], fun _ _ _ _ e he => absurd he List.not_mem_nil⟩

omit [DecidableEq H] in
theorem Later.trans {s t u : St H P} (h : Later s t) (h' : Later t u) : Later s u where
  seals x hx := h'.seals x (h.seals x hx)
  closed x hx r hr := by
    obtain ⟨r₁, hr₁, he₁⟩ := h.closed x hx r hr
    obtain ⟨r₂, hr₂, he₂⟩ := h'.closed x (h.seals x hx) r₁ hr₁
    exact ⟨r₂, hr₂, he₂.trans he₁⟩
  entries := by
    obtain ⟨l₁, h₁, hd₁⟩ := h.entries
    obtain ⟨l₂, h₂, hd₂⟩ := h'.entries
    refine ⟨l₁ ++ l₂, by rw [h₂, h₁, List.append_assoc], fun x hx r hr e he => ?_⟩
    rcases List.mem_append.1 he with he | he
    · exact hd₁ x hx r hr e he
    · obtain ⟨r₁, hr₁, he₁⟩ := h.closed x hx r hr
      rw [← he₁]
      exact hd₂ x (h.seals x hx) r₁ hr₁ e he

theorem later_of_step {s s' : St H P} {l : Lbl H P} (hi : Settled s) (st : drained.step s l s') : Later s s' := by
  obtain ⟨st, hd⟩ := LTS.restrict_step.1 st
  have hstep : InMemory.step s l = some s' := st
  refine ⟨fun x hx => ?_, fun x hx r hr => hr.step hi hd hstep hx, ?_⟩
  · rcases journal_of_step hstep with hsame | ⟨k, -, hafter⟩
    · rw [hsame]
      exact hx
    · rw [hafter]
      exact (booksStep s.journal k).seals_stay hx
  · obtain ⟨later, hentries, hlater⟩ := (joined_of_step hi.mapped hstep).entries
    exact ⟨later, hentries, fun x _ r hr e he => hr.pending e (hlater e he)⟩

theorem later_of_run {s u : St H P} {ls : List (Lbl H P)} (hi : Settled s) (r : drained.Run s ls u) : Later s u :=
  r.rel settled_stable (R := Later) Later.refl (fun _ _ _ => Later.trans) (fun _ _ _ hi st => later_of_step hi st) hi

/-- In `u`, as in `s`: nothing has joined the entries behind the period, and its closing
balances are the ones `x` commits to. -/
structure BooksStay (s u : St H P) (x : Seal H) (r : Period) : Prop where
  onFile : s.journal.calendar.get x.period = some r
  later : ∃ later, u.journal.entries = s.journal.entries ++ later ∧ ∀ e ∈ later, r.end < e.bookingDate
  balance : ∃ tb, u.journal.trialBalanceThroughDate r.end = .ok tb ∧ x.trialBalance = trialBalanceHead tb

/-- **The books behind a seal stay**, in every drained run. -/
theorem booksStay_of_run {s u : St H P} {ls : List (Lbl H P)} (hs : drained.Reachable s) (r : drained.Run s ls u) :
    ∀ x ∈ s.journal.seals.seals, ∃ p, BooksStay s u x p := by
  intro x hx
  have hi := settled_of_reachable hs
  have hl := later_of_run hi r
  obtain ⟨p, hp⟩ := hi.seals x hx
  obtain ⟨p', hp', hend⟩ := hl.closed x hx p hp
  obtain ⟨later, hentries, hlater⟩ := hl.entries
  obtain ⟨tb, htb, hhead⟩ := hp'.closing
  refine ⟨p, hp.onFile, ⟨later, hentries, hlater x hx p hp⟩, tb, ?_, hhead⟩
  rw [← hend]
  exact htb

/-! ## Sample runs -/

/-- Two accounts, March, and a validated sale in it. -/
def marchSale : List (Lbl Preimage cents) :=
  [.call (.registerAccount ⟨cashId, cash⟩), .call (.registerAccount ⟨salesId, sales⟩), .call (.definePeriod march),
    .validate saleOfMarch L5.St.marchOpen]

/-- Another client closes and seals March. -/
def sealMarch : List (Lbl Preimage cents) :=
  [.call (.transitionPeriod march.id .closing), .call (.sealPeriod march.id)]

def start : St Preimage cents := ⟨(Journal.new books).withPolicy .permissive, []⟩

/-- The state after a run. -/
def afterRun (ls : List (Lbl Preimage cents)) : St Preimage cents := (LTS.exec step start ls).getD start

/-- The sale is appended while March is open. -/
def soldThenSealed : List (Lbl Preimage cents) := marchSale ++ [.call (.append [L5.St.soldInMarch])] ++ sealMarch

/-- Then a sale in April, validated against a snapshot. -/
def aprilSale : List (Lbl Preimage cents) :=
  [.validate saleOfApril { L5.St.marchOpen with calendar := (afterRun soldThenSealed).journal.calendar },
    .call (.append [saleOfApril.withState .balanced])]

/-- The sale is appended when March is sealed. -/
def sealedThenSold : List (Lbl Preimage cents) := marchSale ++ sealMarch ++ [.call (.append [L5.St.soldInMarch])]

/-- Drafts are validated against a calendar the store reports. -/
def Reporting (s : St H P) : Lbl H P → Prop
  | .validate _ ctx => Reports s.journal.calendar ctx.calendar
  | _ => True

omit [DecidableEq H] in
instance (s : St H P) : DecidablePred (Reporting s)
  | .validate _ ctx => inferInstanceAs (Decidable (ctx.calendar = s.journal.calendar ∨
      (PeriodCalendar.fromPeriods s.journal.calendar.iter).toOption = some ctx.calendar))
  | .drop _ | .call _ => inferInstanceAs (Decidable True)

end InMemory

namespace St

variable {H : Type} {P : Scale}

/-- Drafts are validated against the calendar of the rows. -/
def Reporting (B : Backend) (s : St H P) : Lbl H P → Prop
  | .validate _ ctx => (calendar B.dialect s.tables.periods).toOption = some ctx.calendar
  | _ => True

instance (B : Backend) (s : St H P) : DecidablePred (Reporting B s)
  | .validate _ ctx => inferInstanceAs (Decidable ((calendar B.dialect s.tables.periods).toOption = some ctx.calendar))
  | .drop _ | .append _ | .begin _ | .commit _ | .abort _ | .sequence _ | .registerAccount _ | .definePeriod _
  | .readTransition _ _ _ | .update _ | .readCalendar _ _ | .readSpan _ | .readBalances _ | .readSeals _ | .readHead _
  | .readAccounts _ | .commitSeal _ | .fail _ => inferInstanceAs (Decidable True)

/-- March is sealed, and then the sale appended. -/
def sealedThenSold : List (Lbl Preimage cents) := marchSale ++ closeMarch ++ sealMarch ++ [.append [soldInMarch]]

end St

variable {H : Type} [Blake3 H] [DecidableEq H] {P : Scale}

/-- **Books behind a seal stay**, on the in-memory store and on SQLite, in every run
whose steps are drained. -/
theorem validated_books_stay :
    (∀ {s u : InMemory.St H P} {ls : List (InMemory.Lbl H P)}, InMemory.drained.Reachable s →
      InMemory.drained.Run s ls u → ∀ x ∈ s.journal.seals.seals, ∃ p, InMemory.BooksStay s u x p) ∧
    ∀ {s u : St H P} {ls : List (Lbl H P)}, (St.drained .sqlite).Reachable s → (St.drained .sqlite).Run s ls u →
      ∀ x ∈ s.tables.seals, ∃ p, St.BooksStay .sqlite s u x p :=
  ⟨fun hs r => InMemory.booksStay_of_run hs r, fun hs r => St.booksStay_of_run hs r⟩

set_option maxRecDepth 10000 in
/-- Not vacuous: March's seal stands after a sale in April is appended. -/
theorem march_seal_stands :
    (InMemory.afterRun (InMemory.soldThenSealed ++ InMemory.aprilSale)).journal.entries.length = 2 ∧
    ∀ x ∈ (InMemory.afterRun InMemory.soldThenSealed).journal.seals.seals, ∃ p,
      InMemory.BooksStay (InMemory.afterRun InMemory.soldThenSealed)
        (InMemory.afterRun (InMemory.soldThenSealed ++ InMemory.aprilSale)) x p :=
  ⟨by decide, validated_books_stay.1 (LTS.reachable_restrict_of_exec ⟨books, .permissive, rfl⟩ (by decide))
    (LTS.run_restrict_of_exec (by decide) (by decide))⟩

set_option maxRecDepth 10000 in
/-- **Appended behind the seal.** The sale was validated while March was open. Once March
is sealed either store appends it, and March's balances are restated. -/
theorem appended_behind_seal :
    ((InMemory.system.restrict InMemory.Reporting).Reachable (InMemory.afterRun InMemory.sealedThenSold) ∧
      (InMemory.afterRun InMemory.sealedThenSold).journal.calendar.sealedThrough = some march.end ∧
      (InMemory.afterRun InMemory.sealedThenSold).journal.entries = [St.soldInMarch] ∧
      (InMemory.afterRun InMemory.sealedThenSold).journal.proveSealedBalance march.id ⟨cashId, .eur, .settled⟩ =
        .error (.sealedBalance (.restated march.id))) ∧
    ((St.system .sqlite).restrict (St.Reporting .sqlite)).Reachable (St.afterRun .sqlite St.sealedThenSold) ∧
      (St.afterRun .sqlite St.sealedThenSold).tables.seals.length = 1 ∧
      (St.afterRun .sqlite St.sealedThenSold).tables.log.length = 1 ∧
      (St.afterRun .sqlite St.sealedThenSold).tables.proveSealedBalance sqlite march.id ⟨cashId, .eur, .settled⟩ =
        .error (.sealedBalance (.restated march.id)) := by
  refine ⟨⟨LTS.reachable_restrict_of_exec ⟨books, .permissive, rfl⟩ (by decide), by decide, by decide,
    error?_eq_some.1 ?_⟩, St.reachable_restrict_afterRun (by decide), by decide, by decide, error?_eq_some.1 ?_⟩
  · decide
  · decide

end DoubleEntry.L5
