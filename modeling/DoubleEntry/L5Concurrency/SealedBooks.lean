import DoubleEntry.L5Concurrency.ClientLog

/-!
# Books a seal has closed

A balanced entry carries no evidence of the calendar it was validated against,
and an unsequenced row none of the state it was admitted in: both may join the
log behind a seal. `Drained` is what a ledger has to see to instead. When a
client reads the closing balances of a period, nothing booked by its end is
still pending; until it commits, nothing booked by its end is validated; and a
period with a seal stays sealed.

Over such steps the log behind a stored seal is final (`Settled`): later entries
are booked after the period, its closing balances recompute to what the seal
commits to, and no sealed balance is restated (`booksStay_of_run`).

**Assumptions.** `Drained`, of each step, and that it is `Ordinary`: SQL compares dates as the
calendar does, and a definition moves no range in use. Nothing is asked of what is booked
after the period.

**Results.**
* `Effect.pending_after`, `Effect.sealedRow`, `Effect.settled`: one step.
* `booksStay_of_run`, `not_restated`: runs, on either backend.
* `deferred_books_stay`: both for Postgres, where rows wait for their position.
* `sequenced_behind_seal`: a pass behind the seal.
-/
namespace DoubleEntry.L5

open DoubleEntry.Core DoubleEntry.L1 DoubleEntry.L2 DoubleEntry.L3 DoubleEntry.L4

variable {H : Type} [Blake3 H] [DecidableEq H] {P : Scale}

namespace Client

/-- The period whose closing balances a client has read. -/
def folded? : Client H P → Option Period
  | .folded p _ _ | .chained p _ _ _ _ | .headed p _ _ _ _ _ | .built p _ _ => some p
  | _ => none

/-- The state change a client has checked. -/
def update? : Client H P → Option (PeriodId × PeriodState)
  | .updating id target => some (id, target)
  | _ => none

/-- The balances a client holds are those of the log. -/
def Closes (log : List (Logged H P)) : Client H P → Prop
  | .folded p _ closing | .chained p _ closing _ _ | .headed p _ closing _ _ _ =>
    closingBalance (log.map (·.entry)) p.end = .ok closing
  | .built p _ x => x.period = p.id ∧
    ∃ tb, closingBalance (log.map (·.entry)) p.end = .ok tb ∧ x.trialBalance = trialBalanceHead tb
  | _ => True

omit [DecidableEq H] in
/-- They stay so when later entries are booked after the period. -/
theorem Closes.append {log later : List (Logged H P)} {c : Client H P} (h : c.Closes log)
    (hl : ∀ p ∈ c.folded?, ∀ x ∈ later, p.end < x.entry.bookingDate) : c.Closes (log ++ later) := by
  have hdates : ∀ p ∈ c.folded?, ∀ e ∈ later.map (·.entry), p.end < e.bookingDate := fun p hp e he => by
    obtain ⟨x, hx, rfl⟩ := List.mem_map.1 he
    exact hl p hp x hx
  cases c with
  | folded p coverage closing =>
    simp only [Closes, List.map_append] at h ⊢
    rw [closingBalance_append (hdates p rfl)]
    exact h
  | chained p coverage closing position prev =>
    simp only [Closes, List.map_append] at h ⊢
    rw [closingBalance_append (hdates p rfl)]
    exact h
  | headed p coverage closing position prev head =>
    simp only [Closes, List.map_append] at h ⊢
    rw [closingBalance_append (hdates p rfl)]
    exact h
  | built p position x =>
    simp only [Closes, List.map_append] at h ⊢
    rw [closingBalance_append (hdates p rfl)]
    exact h
  | idle => exact trivial
  | updating id target => exact trivial
  | checked p => exact trivial
  | spanned p coverage => exact trivial

end Client

namespace St

variable {B : Backend} {s s' : St H P} {l : Lbl H P}

/-! ## Drained steps -/

/-- What a ledger sees to at one step, besides what makes it ordinary. -/
def Drains (B : Backend) (s : St H P) : Lbl H P → Prop
  | .validate draft ctx => (calendar B.dialect s.tables.periods).toOption = some ctx.calendar ∧
      ∀ c ∈ s.clients, ∀ p ∈ c.folded?, p.end < draft.bookingDate
  | .readBalances i => ∀ p ∈ (s.clients[i]?).bind Client.definition?, ∀ e ∈ s.pending, p.end < e.bookingDate
  | .update i => ∀ u ∈ (s.clients[i]?).bind Client.update?, (∃ x ∈ s.tables.seals, x.period = u.1) → u.2 = .sealed
  | .definePeriod p => (definePeriod B s.tables.periods p).toOption.isSome →
      (∃ x ∈ s.tables.seals, x.period = p.id) → p.state = .sealed
  | _ => True

omit [Blake3 H] [DecidableEq H] in
instance : DecidablePred (Drains B s)
  | .validate draft ctx => inferInstanceAs (Decidable ((calendar B.dialect s.tables.periods).toOption = some ctx.calendar ∧
      ∀ c ∈ s.clients, ∀ p ∈ c.folded?, p.end < draft.bookingDate))
  | .readBalances i => inferInstanceAs (Decidable (∀ p ∈ (s.clients[i]?).bind Client.definition?, ∀ e ∈ s.pending,
      p.end < e.bookingDate))
  | .update i => inferInstanceAs (Decidable (∀ u ∈ (s.clients[i]?).bind Client.update?,
      (∃ x ∈ s.tables.seals, x.period = u.1) → u.2 = .sealed))
  | .definePeriod p => inferInstanceAs (Decidable ((definePeriod B s.tables.periods p).toOption.isSome →
      (∃ x ∈ s.tables.seals, x.period = p.id) → p.state = .sealed))
  | .drop _ | .append _ | .begin _ | .commit _ | .abort _ | .sequence _ | .registerAccount _ | .readTransition _ _ _
  | .readCalendar _ _ | .readSpan _ | .readSeals _ | .readHead _ | .readAccounts _ | .commitSeal _ | .fail _ =>
    inferInstanceAs (Decidable True)

def Drained (B : Backend) (s : St H P) (l : Lbl H P) : Prop := Ordinary B s l ∧ Drains B s l

omit [Blake3 H] [DecidableEq H] in
instance : DecidablePred (Drained B s) := fun l => by unfold Drained; infer_instance

/-! ## The invariant -/

/-- `x` closed the period `r` on file, and nothing pending reaches behind it. -/
structure Closed (B : Backend) (s : St H P) (x : Seal H) (r : Period) : Prop where
  row : s.tables.periods.rows.get? x.period = some r
  state : r.state = .sealed
  ordered : B.Orders r.end
  pending : ∀ e ∈ s.pending, r.end < e.bookingDate
  closing : ∃ tb, closingBalance (s.tables.log.map (·.entry)) r.end = .ok tb ∧ x.trialBalance = trialBalanceHead tb

/-- Stored seals and the seals being taken are final. -/
structure Settled (B : Backend) (s : St H P) : Prop extends Base B s where
  pending : ∀ c ∈ s.clients, ∀ p ∈ c.folded?, ∀ e ∈ s.pending, p.end < e.bookingDate
  stores : ∀ c ∈ s.clients, ∀ p ∈ c.folded?, B.storesDate p.end = true
  reads : ∀ c ∈ s.clients, c.Closes s.tables.log
  seals : ∀ x ∈ s.tables.seals, ∃ r, Closed B s x r

omit [DecidableEq H] in
theorem settled_initial (B : Backend) (ledger : LedgerId) (clients : Nat) :
    Settled B (initial ledger clients : St H P) where
  toBase := base_initial B ledger clients
  pending c hc p hp := by
    rw [List.eq_of_mem_replicate hc] at hp
    cases hp
  stores c hc p hp := by
    rw [List.eq_of_mem_replicate hc] at hp
    cases hp
  reads c hc := by
    rw [List.eq_of_mem_replicate hc]
    exact trivial
  seals := by simp [initial, Tables.empty]

/-! ## One step -/

omit [Blake3 H] [DecidableEq H] in
/-- A draft validated against the calendar of the rows is booked after every sealed one. -/
theorem after_sealed_of_validated {t : PeriodTable} {draft : Entry H .draft P} {ctx : SealContext}
    {e : Entry H .balanced P} {id : PeriodId} {r : Period} (hk : (calendar B.dialect t).toOption = some ctx.calendar)
    (ok : draft.seal ctx = .ok e) (hr : t.rows.get? id = some r) (hs : r.state = .sealed) : r.end < e.bookingDate := by
  obtain ⟨d, hd, hle⟩ := (calendarOf_of_ok (toOption_eq_some.1 hk)).1.sealed_le hr hs
  exact hle.trans_lt (Journal.after_of_accepts (Entry.sealed_of_seal ok).accepted d hd)

/-- What is pending after a drained step lies after the stored seals and after the
balances some client has read. -/
theorem Effect.pending_after (h : Effect B s l s') (hi : Settled B s) (hd : Drained B s l) {e : Entry H .balanced P}
    (he : e ∈ s'.pending) : (∀ x ∈ s.tables.seals, ∀ r, Closed B s x r → r.end < e.bookingDate) ∧
      ∀ c ∈ s.clients, ∀ p ∈ c.folded?, p.end < e.bookingDate := by
  rcases h.pending hi.log he with ⟨e', he', hdate⟩ | ⟨draft, ctx, rfl, ok⟩
  · rw [← hdate]
    exact ⟨fun x _ r hr => hr.pending e' he', fun c hc p hp => hi.pending c hc p hp e' he'⟩
  · obtain ⟨hk, hfolded⟩ := hd.2
    refine ⟨fun x _ r hr => after_sealed_of_validated hk ok hr.row hr.state, fun c hc p hp => ?_⟩
    rw [(Entry.seal_eq_ok.1 ok).2]
    exact hfolded c hc p hp

/-- A period with a seal stays sealed, over its range. -/
theorem Effect.sealedRow (h : Effect B s l s') (hl : s.tables.LogInv s.tables.log) (hd : Drained B s l) {x : Seal H}
    (hx : x ∈ s.tables.seals) {r : Period} (hr : s.tables.periods.rows.get? x.period = some r)
    (hs : r.state = .sealed) :
    ∃ r', s'.tables.periods.rows.get? x.period = some r' ∧ r'.state = .sealed ∧ r'.end = r.end := by
  have updated : ∀ (id : PeriodId) (target : PeriodState), (x.period = id → target = .sealed) →
      ∃ r', (s.tables.periods.updateState id target).rows.get? x.period = some r' ∧
        r'.state = .sealed ∧ r'.end = r.end := fun id target ht => by
    cases hq : s.tables.periods.rows.get? id with
    | none =>
      rw [PeriodTable.updateState_none hq]
      exact ⟨r, hr, hs, rfl⟩
    | some q =>
      rw [PeriodTable.get?_updateState hq]
      split
      · rename_i e
        subst e
        obtain rfl : q = r := by simpa [hq] using hr
        exact ⟨_, rfl, ht rfl, rfl⟩
      · exact ⟨r, hr, hs, rfl⟩
  cases h with
  | appended held ok =>
    obtain ⟨rows, subtrees, rfl, -, -⟩ := Tables.append_spec hl ok
    exact ⟨r, hr, hs, rfl⟩
  | committed hw ok =>
    obtain ⟨rows, rfl, -, -⟩ := Tables.commitBatch_spec hl ok
    exact ⟨r, hr, hs, rfl⟩
  | sequenced ok =>
    rw [(Tables.sequence_spec hl ok).2.frame]
    exact ⟨r, hr, hs, rfl⟩
  | @defined p ok =>
    have hok : (definePeriod B s.tables.periods p).toOption.isSome := by rw [ok]; rfl
    show ∃ r', (s.tables.periods.upsert p).rows.get? x.period = some r' ∧ r'.state = .sealed ∧ r'.end = r.end
    rw [PeriodTable.get?_upsert]
    split
    · rename_i e
      rw [← e] at hr
      obtain ⟨-, he⟩ := hd.1 hok (.inr ⟨x, hx, e.symm⟩) r hr
      exact ⟨p, rfl, hd.2 hok ⟨x, hx, e.symm⟩, he.symm⟩
    · exact ⟨r, hr, hs, rfl⟩
  | @updated i id target hc =>
    have hu : (∃ x ∈ s.tables.seals, x.period = id) → target = .sealed :=
      hd.2 (id, target) (by rw [hc]; rfl)
    exact updated id target fun e => hu ⟨x, hx, e⟩
  | stored hc ok =>
    obtain rfl := Tables.insertSeal_eq_some ok
    exact updated _ _ fun _ => rfl
  | _ => exact ⟨r, hr, hs, rfl⟩

omit [DecidableEq H] in
/-- A read of the closing balances keeps nothing pending behind them, and the
later reads keep what it read. -/
theorem folded_of_reads {c c' : Client H P} {p : Period} (h : Client.Reads B s.tables l c c') (hp : p ∈ c'.folded?) :
    p ∈ c.folded? ∨ ∃ i, l = .readBalances i ∧ p ∈ c.definition? := by
  cases h with
  | balances ok => exact .inr ⟨_, rfl, hp⟩
  | chain => exact .inl hp
  | head => exact .inl hp
  | accounts => exact .inl hp
  | _ => cases hp

omit [DecidableEq H] in
/-- The end of a period whose balances were read was bound. -/
theorem stores_of_reads {c c' : Client H P} (h : Client.Reads B s.tables l c c')
    (hc : ∀ p ∈ c.folded?, B.storesDate p.end = true) : ∀ p ∈ c'.folded?, B.storesDate p.end = true := by
  cases h with
  | @balances i p coverage closing ok =>
    intro p' hp'
    obtain rfl : p = p' := Option.some.inj hp'
    exact Tables.storesDate_of_trialBalance ok
  | chain => exact hc
  | head => exact hc
  | accounts => exact hc
  | _ => exact fun p hp => nomatch hp

omit [DecidableEq H] in
theorem closes_of_reads {c c' : Client H P} (h : Client.Reads B s.tables l c c') (hb : Base B s)
    (hm : c ∈ s.clients) (hc : c.Closes s.tables.log) : c'.Closes s.tables.log := by
  cases h with
  | @balances i p coverage closing ok =>
    obtain ⟨-, he, -⟩ := hb.definitions _ hm p rfl
    exact ((Tables.trialBalance_eq_ok hb.log.toRowsOf he hb.rows).1 ok).2
  | chain => exact hc
  | head => exact hc
  | @accounts i position p coverage closing prev head accounts => exact ⟨rfl, closing, hc, rfl⟩
  | _ => exact trivial

/-- **A drained step keeps the books closed.** -/
theorem Effect.settled (h : Effect B s l s') (hi : Settled B s) (hd : Drained B s l) : Settled B s' := by
  obtain ⟨ls, -, hlog, hls⟩ := h.log hi.log
  have hpend : ∀ x ∈ ls, ∃ e ∈ s.pending, e.bookingDate = x.entry.bookingDate := fun x hx => by
    obtain ⟨e, -, he, hdate⟩ := hls x hx
    exact ⟨e, he, hdate⟩
  have closes : ∀ c ∈ s.clients, c.Closes s'.tables.log := fun c hc => by
    rw [hlog]
    refine (hi.reads c hc).append fun p hp x hx => ?_
    obtain ⟨e, he, hdate⟩ := hpend x hx
    rw [← hdate]
    exact hi.pending c hc p hp e he
  refine ⟨h.base hi.toBase hd.1, fun c hc p hp e he => ?_, fun c hc => ?_, fun c hc => ?_, fun x hx => ?_⟩
  · have hafter := (h.pending_after hi hd he).2
    rcases h.clients hc with hc | rfl | ⟨c₀, hc₀, hread, -⟩
    · exact hafter c hc p hp
    · cases hp
    · rcases folded_of_reads hread hp with hp | ⟨i, rfl, hdef⟩
      · exact hafter c₀ (List.mem_of_getElem? hc₀) p hp
      · have hdrain := hd.2 p (by rw [show s.clients[i]? = some c₀ from hc₀]; exact hdef)
        rcases h.pending hi.log he with ⟨e', he', hdate⟩ | ⟨draft, ctx, hl, -⟩
        · rw [← hdate]
          exact hdrain e' he'
        · cases hl
  · rcases h.clients hc with hc | rfl | ⟨c₀, hc₀, hread, -⟩
    · exact hi.stores c hc
    · exact fun p hp => nomatch hp
    · exact stores_of_reads hread (hi.stores c₀ (List.mem_of_getElem? hc₀))
  · rcases h.clients hc with hc | rfl | ⟨c₀, hc₀, hread, ht⟩
    · exact closes c hc
    · exact trivial
    · rw [ht]
      have hm := List.mem_of_getElem? hc₀
      exact closes_of_reads hread hi.toBase hm (hi.reads c₀ hm)
  · rcases h.seals hi.log hx with hx | ⟨i, position, p, rfl, hc, ht⟩
    · obtain ⟨r, hr⟩ := hi.seals x hx
      obtain ⟨r', hr', hs', he'⟩ := h.sealedRow hi.log hd hx hr.row hr.state
      refine ⟨r', hr', hs', he' ▸ hr.ordered, fun e he => ?_, ?_⟩
      · rw [he']
        exact (h.pending_after hi hd he).1 x hx r hr
      · obtain ⟨tb, htb, hx⟩ := hr.closing
        refine ⟨tb, ?_, hx⟩
        rw [he', hlog, List.map_append, closingBalance_append, htb]
        intro e he
        obtain ⟨y, hy, rfl⟩ := List.mem_map.1 he
        obtain ⟨e, he, hdate⟩ := hpend y hy
        rw [← hdate]
        exact hr.pending e he
    · -- the seal just stored
      obtain ⟨hid, htb⟩ : x.period = p.id ∧ ∃ tb, closingBalance (s'.tables.log.map (·.entry)) p.end = .ok tb ∧
          x.trialBalance = trialBalanceHead tb := closes _ hc
      obtain ⟨-, hp, r, hr, -, he⟩ := hi.definitions _ hc p rfl
      have hordered : B.Orders r.end := he ▸ ⟨hi.stores _ hc p rfl, hp⟩
      refine ⟨{ r with state := .sealed }, ?_, rfl, hordered, fun e hpe => ?_, by rw [he]; exact htb⟩
      · rw [ht, hid]
        exact (PeriodTable.get?_updateState hr).trans (if_pos rfl)
      · rw [he]
        exact (h.pending_after hi hd hpe).2 _ hc p rfl

/-! ## Runs -/

theorem Effect.seals_stay (h : Effect B s l s') (hl : s.tables.LogInv s.tables.log) {x : Seal H}
    (hx : x ∈ s.tables.seals) : x ∈ s'.tables.seals := by
  cases h with
  | appended held ok =>
    obtain ⟨rows, subtrees, rfl, -, -⟩ := Tables.append_spec hl ok
    exact hx
  | committed hw ok =>
    obtain ⟨rows, rfl, -, -⟩ := Tables.commitBatch_spec hl ok
    exact hx
  | sequenced ok =>
    rw [(Tables.sequence_spec hl ok).2.frame]
    exact hx
  | stored hc ok =>
    obtain rfl := Tables.insertSeal_eq_some ok
    exact List.mem_append_left _ hx
  | _ => exact hx

/-- The log behind the seals of `s` is the one `u` has behind them. -/
structure Later (B : Backend) (s u : St H P) : Prop where
  seals : ∀ x ∈ s.tables.seals, x ∈ u.tables.seals
  closed : ∀ x ∈ s.tables.seals, ∀ r, Closed B s x r → ∃ r', Closed B u x r' ∧ r'.end = r.end
  log : ∃ later, u.tables.log = s.tables.log ++ later ∧
    ∀ x ∈ s.tables.seals, ∀ r, Closed B s x r → ∀ y ∈ later, r.end < y.entry.bookingDate

omit [DecidableEq H] in
theorem Later.refl (s : St H P) : Later B s s where
  seals _ hx := hx
  closed _ _ r hr := ⟨r, hr, rfl⟩
  log := ⟨[], by rw [List.append_nil], by simp⟩

omit [DecidableEq H] in
theorem Later.trans {s t u : St H P} (h : Later B s t) (h' : Later B t u) : Later B s u where
  seals x hx := h'.seals x (h.seals x hx)
  closed x hx r hr := by
    obtain ⟨r₁, hr₁, he₁⟩ := h.closed x hx r hr
    obtain ⟨r₂, hr₂, he₂⟩ := h'.closed x (h.seals x hx) r₁ hr₁
    exact ⟨r₂, hr₂, he₂.trans he₁⟩
  log := by
    obtain ⟨l₁, h₁, hd₁⟩ := h.log
    obtain ⟨l₂, h₂, hd₂⟩ := h'.log
    refine ⟨l₁ ++ l₂, by rw [h₂, h₁, List.append_assoc], fun x hx r hr y hy => ?_⟩
    rcases List.mem_append.1 hy with hy | hy
    · exact hd₁ x hx r hr y hy
    · obtain ⟨r₁, hr₁, he₁⟩ := h.closed x hx r hr
      rw [← he₁]
      exact hd₂ x (h.seals x hx) r₁ hr₁ y hy

theorem Effect.later (h : Effect B s l s') (hi : Settled B s) (hd : Drained B s l) : Later B s s' where
  seals x hx := h.seals_stay hi.log hx
  closed x hx r hr := by
    obtain ⟨r', hr', hs', he'⟩ := h.sealedRow hi.log hd hx hr.row hr.state
    obtain ⟨q, hq⟩ := (h.settled hi hd).seals x (h.seals_stay hi.log hx)
    obtain rfl : r' = q := Option.some.inj (hr'.symm.trans hq.row)
    exact ⟨r', hq, he'⟩
  log := by
    obtain ⟨ls, -, hlog, hls⟩ := h.log hi.log
    refine ⟨ls, hlog, fun x hx r hr y hy => ?_⟩
    obtain ⟨e, -, he, hdate⟩ := hls y hy
    rw [← hdate]
    exact hr.pending e he

/-- The drained runs of a backend. -/
def drained (B : Backend) : LTS (St H P) (Lbl H P) := (system B).restrict (Drained B)

theorem settled_stable : (drained B : LTS (St H P) (Lbl H P)).Stable (Settled B) :=
  fun _ _ _ hi st => (effect_of_step st.1).settled hi st.2

theorem settled_of_reachable (h : (drained B).Reachable s) : Settled B s := by
  refine LTS.Inductive.reachable (I := Settled B) ⟨?_, settled_stable⟩ h
  rintro _ ⟨ledger, clients, rfl⟩
  exact settled_initial B ledger clients

theorem later_of_run {u : St H P} {ls : List (Lbl H P)} (hi : Settled B s) (r : (drained B).Run s ls u) : Later B s u :=
  r.rel settled_stable (R := Later B) Later.refl (fun _ _ _ => Later.trans)
    (fun _ _ _ hi st => (effect_of_step st.1).later hi st.2) hi

/-! ## What a seal commits to -/

/-- In `u`, as in `s`: nothing has joined the log behind the period, and its
closing balances are the ones `x` commits to. -/
structure BooksStay (B : Backend) (s u : St H P) (x : Seal H) (r : Period) : Prop where
  row : s.tables.periods.rows.get? x.period = some r
  later : ∃ later, u.tables.log = s.tables.log ++ later ∧ ∀ y ∈ later, r.end < y.entry.bookingDate
  balance : ∃ tb, u.tables.trialBalanceThroughDate B.dialect r.end = .ok tb ∧ x.trialBalance = trialBalanceHead tb

/-- **The books behind a seal stay**, in every drained run. -/
theorem booksStay_of_run {u : St H P} {ls : List (Lbl H P)} (hs : (drained B).Reachable s)
    (r : (drained B).Run s ls u) : ∀ x ∈ s.tables.seals, ∃ p, BooksStay B s u x p := by
  intro x hx
  have hi := settled_of_reachable hs
  have hu := settled_of_reachable (hs.run r)
  have hl := later_of_run hi r
  obtain ⟨p, hp⟩ := hi.seals x hx
  obtain ⟨p', hp', he⟩ := hl.closed x hx p hp
  obtain ⟨tb, htb, hhead⟩ := hp'.closing
  obtain ⟨later, hlog, hlater⟩ := hl.log
  refine ⟨p, hp.row, ⟨later, hlog, hlater x hx p hp⟩, tb, ?_, hhead⟩
  rw [← he]
  exact (Tables.trialBalance_eq_ok hu.log.toRowsOf hp'.ordered.unsigned hu.rows).2 ⟨hp'.ordered.stores, htb⟩

omit [DecidableEq H] in
theorem assemble_not_restated [DecidableEq H] {x : Seal H} {tb : TrialBalance P} {accounts : AccountRegistry}
    {key : BalanceKey} {id : PeriodId} (h : x.trialBalance = trialBalanceHead tb) :
    SealedBalance.assemble x tb accounts key ≠ .error (.restated id) := by
  have hhead : ¬ (TrialBalanceCommitment.of tb : TrialBalanceCommitment H P).head ≠ x.trialBalance := not_not.2 h.symm
  unfold SealedBalance.assemble
  simp only [if_neg hhead]
  split
  · simp
  · split
    · split <;> simp
    · simp

theorem not_restated (hi : Settled B s) (period : PeriodId) (key : BalanceKey) (id : PeriodId) :
    s.tables.proveSealedBalance B.dialect period key ≠ .error (.sealedBalance (.restated id)) := by
  intro h
  unfold Tables.proveSealedBalance at h
  split at h
  · cases h
  · rename_i x hx
    obtain ⟨r, hr⟩ := hi.seals x (List.mem_of_find?_eq_some hx)
    obtain ⟨tb, htb, hhead⟩ := hr.closing
    have hclosing := (Tables.trialBalance_eq_ok hi.log.toRowsOf hr.ordered.unsigned hi.rows).2 ⟨hr.ordered.stores, htb⟩
    rcases bind_eq_error.1 h with h | ⟨stored, hstored, h⟩
    · obtain ⟨e, -, he⟩ := mapError_eq_error.1 h
      cases he
    obtain ⟨rfl, -⟩ := mapM_eq_ok_self (fun a b h => (periodRow_eq_ok.1 h).2) (mapError_eq_ok.1 hstored)
    split at h
    · cases h
    · rename_i p hp
      have hrow := PeriodTable.mem_select.1 (List.mem_of_find?_eq_some hp)
      have hid : p.id = x.period := by simpa using List.find?_some hp
      rw [hid, hr.row] at hrow
      obtain rfl := Option.some.inj hrow
      rcases bind_eq_error.1 h with h | ⟨closing, hc, h⟩
      · obtain ⟨e, -, he⟩ := mapError_eq_error.1 h
        cases he
      obtain rfl : closing = tb := Except.ok.inj ((mapError_eq_ok.1 hc).symm.trans hclosing)
      rcases bind_eq_error.1 h with h | ⟨accounts, -, h⟩
      · obtain ⟨e, -, he⟩ := mapError_eq_error.1 h
        cases he
      · obtain ⟨e, ha, he⟩ := mapError_eq_error.1 h
        cases he
        exact assemble_not_restated hhead ha

/-- **Closed books of the deferred log.** Whenever a client reads the closing
balances of a period with nothing behind them still unsequenced, and nothing is
validated into it until the seal commits, then for every seal stored by then:
later log entries are booked after its period, the trial balance recomputes to
the one it commits to, and no sealed balance is ever restated. -/
theorem deferred_books_stay {u : St H P} {ls : List (Lbl H P)} (hs : (drained .postgres).Reachable s)
    (r : (drained .postgres).Run s ls u) : (∀ x ∈ s.tables.seals, ∃ p, BooksStay .postgres s u x p) ∧
      ∀ period key id, u.tables.proveSealedBalance postgres period key ≠ .error (.sealedBalance (.restated id)) :=
  ⟨booksStay_of_run hs r, not_restated (settled_of_reachable (hs.run r))⟩

/-- The sale is committed and sequenced, and March sealed over it. -/
def sequencedThenSealed : List (Lbl Preimage cents) :=
  marchSale ++ [.begin [soldInMarch], .commit 0, .sequence 1] ++ closeMarch ++ sealMarch

/-- What a caller validates against once March is sealed. -/
def marchSealedOn (B : Backend) (ls : List (Lbl Preimage cents)) : SealContext :=
  { marchOpen with calendar := (calendar B.dialect (afterRun B ls).tables.periods).toOption.getD .new }

/-- Then a sale in April. -/
def aprilSale : List (Lbl Preimage cents) :=
  [.validate saleOfApril (marchSealedOn .postgres sequencedThenSealed),
    .begin [saleOfApril.withState .balanced], .commit 1, .sequence 2]

set_option maxRecDepth 10000 in
/-- Not vacuous: March's seal stands after a sale in April is sequenced. -/
theorem march_books_stay : (afterRun .postgres (sequencedThenSealed ++ aprilSale)).tables.log.length = 2 ∧
    ∀ x ∈ (afterRun .postgres sequencedThenSealed).tables.seals, ∃ p,
      BooksStay .postgres (afterRun .postgres sequencedThenSealed) (afterRun .postgres (sequencedThenSealed ++ aprilSale))
        x p :=
  ⟨by decide, (deferred_books_stay (reachable_restrict_afterRun (by decide))
    (run_restrict_afterRun (by decide) (by decide))).1⟩

/-- The sale is committed, March sealed, and only then the sale sequenced. -/
def sealedThenSequenced : List (Lbl Preimage cents) :=
  marchSale ++ [.begin [soldInMarch], .commit 0] ++ closeMarch ++ sealMarch ++ [.sequence 1]

set_option maxRecDepth 10000 in
/-- **Sequenced behind the seal.** The row was committed while March was open, its
pass ran after the seal: March's balances are restated. -/
theorem sequenced_behind_seal : (system .postgres).Reachable (afterRun .postgres sealedThenSequenced) ∧
    (afterRun .postgres sealedThenSequenced).tables.seals.length = 1 ∧
    (afterRun .postgres sealedThenSequenced).tables.proveSealedBalance postgres march.id ⟨cashId, .eur, .settled⟩ =
      .error (.sealedBalance (.restated march.id)) := by
  refine ⟨reachable_afterRun (by decide), by decide, error?_eq_some.1 ?_⟩
  decide

end St

end DoubleEntry.L5
