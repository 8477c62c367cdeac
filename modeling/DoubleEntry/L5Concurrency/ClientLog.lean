import DoubleEntry.L5Concurrency.Clients

/-!
# The log under any clients

In every run the tables hold a log, and a step only extends it, by entries that
join it in that step (`Effect.log`). An entry that joins was pending before:
validated, or in an open transaction, or in a row without a position
(`Effect.pending`).

`Ordinary` steps keep dates within what the backend's SQL orders and move no
range in use; over them a client's definition stays the range on file (`Base`).

**Results.**
* `Effect.pending`: what is pending after a step was pending before, or is a draft just
  validated.
* `Effect.log`: the log is extended, by entries that were pending.
* `Effect.ranges`, `Effect.clients`, `Effect.seals`: where ranges, clients and seals of a step
  come from.
* `definition_of_reads`: a client's period is the one on file.
-/
namespace DoubleEntry.L5.St

open DoubleEntry.Core DoubleEntry.L1 DoubleEntry.L2 DoubleEntry.L3 DoubleEntry.L4

variable {H : Type} [Blake3 H] [DecidableEq H] {P : Scale}

/-! ## Pending entries -/

/-- The entries a step can bring into the log. -/
def joining (s : St H P) : Lbl H P → List (Entry H .balanced P)
  | .append batch => batch.filter fun e => (s.tables.byKey e.idempotencyKey).isNone
  | .sequence xmin => (s.tables.sequenceable xmin).map (·.entry)
  | _ => []

/-- The entries some client may still bring into the log without validating them again. -/
def pending (s : St H P) : List (Entry H .balanced P) :=
  ((s.held ++ s.writers.flatMap Prod.snd).filter fun e => (s.tables.byKey e.idempotencyKey).isNone) ++
    (s.tables.entries.filter fun r => r.placed.isNone).map (·.entry)

omit [Blake3 H] [DecidableEq H] in
theorem mem_pending {s : St H P} {e : Entry H .balanced P} : e ∈ s.pending ↔
    ((e ∈ s.held ∨ ∃ w ∈ s.writers, e ∈ w.2) ∧ ∀ y ∈ s.tables.entries, y.entry.idempotencyKey ≠ e.idempotencyKey) ∨
      ∃ r ∈ s.tables.entries, r.placed = none ∧ r.entry = e := by
  simp only [pending, List.mem_append, List.mem_filter, List.mem_flatMap, List.mem_map, Option.isNone_iff_eq_none,
    byKey_eq_none, and_assoc]

variable {B : Backend} {s s' : St H P} {l : Lbl H P}

/-- What is pending after a step was pending before, but for a draft just validated. -/
theorem Effect.pending (h : Effect B s l s') (hl : s.tables.LogInv s.tables.log) {e : Entry H .balanced P} (he : e ∈ s'.pending) :
    (∃ e' ∈ s.pending, e'.bookingDate = e.bookingDate) ∨
      ∃ draft ctx, l = .validate draft ctx ∧ draft.seal ctx = .ok e := by
  have same : e ∈ s.pending → (∃ e' ∈ s.pending, e'.bookingDate = e.bookingDate) ∨
      ∃ draft ctx, l = .validate draft ctx ∧ draft.seal ctx = .ok e := fun h => .inl ⟨e, h, rfl⟩
  cases h with
  | keep => exact same he
  | @validated draft ctx e₀ ok =>
    rcases mem_pending.1 he with ⟨hh, hk⟩ | hr
    · rcases hh with hh | hw
      · rcases List.mem_append.1 hh with hh | hh
        · exact same (mem_pending.2 (.inl ⟨.inl hh, hk⟩))
        · rw [List.mem_singleton.1 hh]
          exact .inr ⟨draft, ctx, rfl, ok⟩
      · exact same (mem_pending.2 (.inl ⟨.inr hw, hk⟩))
    · exact same (mem_pending.2 (.inr hr))
  | dropped =>
    rcases mem_pending.1 he with ⟨hh, hk⟩ | hr
    · exact same (mem_pending.2 (.inl ⟨hh.imp_left fun hh => (List.mem_filter.1 hh).1, hk⟩))
    · exact same (mem_pending.2 (.inr hr))
  | @appended batch out t held ok =>
    obtain ⟨rows, subtrees, rfl, -, hnew⟩ := Tables.append_spec hl ok
    rcases mem_pending.1 he with ⟨hh, hk⟩ | ⟨r, hr, hn, rfl⟩
    · exact same (mem_pending.2 (.inl ⟨hh, fun y hy => hk y (List.mem_append_left _ hy)⟩))
    · rcases List.mem_append.1 hr with hr | hr
      · exact same (mem_pending.2 (.inr ⟨r, hr, hn, rfl⟩))
      · have hsome := (hnew r hr).1
        rw [hn] at hsome
        cases hsome
  | began held =>
    rcases mem_pending.1 he with ⟨hh, hk⟩ | hr
    · refine same (mem_pending.2 (.inl ⟨?_, hk⟩))
      rcases hh with hh | ⟨w, hw, hwe⟩
      · exact .inl hh
      · rcases List.mem_append.1 hw with hw | hw
        · exact .inr ⟨w, hw, hwe⟩
        · rw [List.mem_singleton.1 hw] at hwe
          exact .inl (held e hwe)
    · exact same (mem_pending.2 (.inr hr))
  | @committed xid w t hw ok =>
    obtain ⟨rows, rfl, -, hnew⟩ := Tables.commitBatch_spec hl ok
    rcases mem_pending.1 he with ⟨hh, hk⟩ | ⟨r, hr, hn, rfl⟩
    · refine same (mem_pending.2 (.inl ⟨?_, fun y hy => hk y (List.mem_append_left _ hy)⟩))
      exact hh.imp_right fun ⟨w, hw, hwe⟩ => ⟨w, (List.mem_filter.1 hw).1, hwe⟩
    · rcases List.mem_append.1 hr with hr | hr
      · exact same (mem_pending.2 (.inr ⟨r, hr, hn, rfl⟩))
      · -- a row the transaction inserted: its entry was in the open batch
        obtain ⟨-, e', he', hrow, hkey⟩ := hnew r hr
        refine .inl ⟨e', mem_pending.2 (.inl ⟨.inr ⟨w, hw, he'⟩, hkey⟩), ?_⟩
        rw [hrow]
        rfl
  | ended =>
    rcases mem_pending.1 he with ⟨hh, hk⟩ | hr
    · refine same (mem_pending.2 (.inl ⟨?_, hk⟩))
      exact hh.imp_right fun ⟨w, hw, hwe⟩ => ⟨w, (List.mem_filter.1 hw).1, hwe⟩
    · exact same (mem_pending.2 (.inr hr))
  | @sequenced xmin n t ok =>
    obtain ⟨-, hpl⟩ := Tables.sequence_spec hl ok
    have hkeys : (∀ y ∈ t.entries, y.entry.idempotencyKey ≠ e.idempotencyKey) →
        ∀ y ∈ s.tables.entries, y.entry.idempotencyKey ≠ e.idempotencyKey := fun hk y hy => by
      have hy' : y.toLogged ∈ t.entries.map (·.toLogged) := hpl.leaves ▸ List.mem_map_of_mem hy
      obtain ⟨z, hz, hzy⟩ := List.mem_map.1 hy'
      rw [← hzy]
      exact hk z hz
    rcases mem_pending.1 he with ⟨hh, hk⟩ | ⟨r, hr, hn, hre⟩
    · exact same (mem_pending.2 (.inl ⟨hh, hkeys hk⟩))
    · exact same (mem_pending.2 (.inr ⟨r, hpl.unplaced r hr hn, hn, hre⟩))
  | registered => exact same he
  | defined ok => exact same he
  | reads hc ok => exact same he
  | updated hc => exact same he
  | refused => exact same he
  | @stored i position p x t hc ok =>
    unfold Tables.insertSeal at ok
    split at ok
    · cases ok; exact same he
    · cases ok

/-! ## The log grows -/

/-- **A step extends the log**, by entries that join it and were pending. -/
theorem Effect.log (h : Effect B s l s') (hl : s.tables.LogInv s.tables.log) :
    ∃ ls, s'.tables.LogInv s'.tables.log ∧ s'.tables.log = s.tables.log ++ ls ∧
      ∀ x ∈ ls, ∃ e ∈ s.joining l, e ∈ s.pending ∧ e.bookingDate = x.entry.bookingDate := by
  have grown : ∀ ls, s'.tables.LogInv (s.tables.log ++ ls) →
      s'.tables.LogInv s'.tables.log ∧ s'.tables.log = s.tables.log ++ ls := fun ls h => by
    have := s'.tables.log_eq h.logOf
    exact ⟨this ▸ h, this⟩
  have same : s'.tables.entries = s.tables.entries → s'.tables.subtrees = s.tables.subtrees →
      ∃ ls, s'.tables.LogInv s'.tables.log ∧ s'.tables.log = s.tables.log ++ ls ∧
        ∀ x ∈ ls, ∃ e ∈ s.joining l, e ∈ s.pending ∧ e.bookingDate = x.entry.bookingDate := fun he hs => by
    obtain ⟨h₁, h₂⟩ := grown [] (by rw [List.append_nil]; exact Tables.logInv_of_eq hl he hs)
    exact ⟨[], h₁, h₂, by simp⟩
  cases h with
  | keep => exact same rfl rfl
  | validated ok => exact same rfl rfl
  | dropped => exact same rfl rfl
  | @appended batch out t held ok =>
    obtain ⟨rows, subtrees, rfl, hl', hnew⟩ := Tables.append_spec hl ok
    obtain ⟨h₁, h₂⟩ := grown _ hl'
    refine ⟨_, h₁, h₂, fun x hx => ?_⟩
    obtain ⟨r, hr, rfl⟩ := List.mem_map.1 hx
    obtain ⟨-, e, he, hrow, hkey⟩ := hnew r hr
    refine ⟨e, List.mem_filter.2 ⟨he, ?_⟩, mem_pending.2 (.inl ⟨.inl (held e he), hkey⟩), ?_⟩
    · rw [byKey_eq_none.2 hkey]
      rfl
    · rw [hrow]
      rfl
  | began held => exact same rfl rfl
  | @committed xid w t hw ok =>
    obtain ⟨rows, rfl, hl', -⟩ := Tables.commitBatch_spec hl ok
    obtain ⟨h₁, h₂⟩ := grown [] (by rw [List.append_nil]; exact hl')
    exact ⟨[], h₁, h₂, by simp⟩
  | ended => exact same rfl rfl
  | @sequenced xmin n t ok =>
    obtain ⟨hl', -⟩ := Tables.sequence_spec hl ok
    obtain ⟨h₁, h₂⟩ := grown _ hl'
    refine ⟨_, h₁, h₂, fun x hx => ?_⟩
    obtain ⟨r, hr, rfl⟩ := List.mem_map.1 hx
    obtain ⟨hm, hn, -⟩ := Tables.mem_sequenceable.1 hr
    exact ⟨r.entry, List.mem_map_of_mem hr, mem_pending.2 (.inr ⟨r, hm, hn, rfl⟩), rfl⟩
  | registered => exact same rfl rfl
  | defined ok => exact same rfl rfl
  | reads hc ok => exact same rfl rfl
  | updated hc => exact same rfl rfl
  | refused => exact same rfl rfl
  | stored hc ok =>
    obtain rfl := Tables.insertSeal_eq_some ok
    exact same rfl rfl

/-! ## Ordinary steps -/

/-- A client has read the definition of `id`, or a seal of it is stored. -/
def InUse (s : St H P) (id : PeriodId) : Prop :=
  (∃ c ∈ s.clients, ∃ p ∈ c.definition?, p.id = id) ∨ ∃ x ∈ s.tables.seals, x.period = id

omit [Blake3 H] [DecidableEq H] in
instance (id : PeriodId) : Decidable (s.InUse id) := by unfold InUse; infer_instance

/-- Dates the backend orders, and no range in use moved. -/
def Ordinary (B : Backend) (s : St H P) : Lbl H P → Prop
  | .validate draft _ => B.Unsigned draft.bookingDate
  | .readCalendar _ id => ∀ r ∈ s.tables.periods.rows.get? id, B.Unsigned r.start ∧ B.Unsigned r.end
  | .definePeriod p => (definePeriod B s.tables.periods p).toOption.isSome → s.InUse p.id →
      ∀ r ∈ s.tables.periods.rows.get? p.id, r.start = p.start ∧ r.end = p.end
  | _ => True

omit [Blake3 H] [DecidableEq H] in
instance : DecidablePred (Ordinary B s) := fun l => by
  cases l <;> unfold Ordinary <;> infer_instance

/-- `id` has a row in `u` with the range it has in `t`. -/
def RangeStays (t u : PeriodTable) (id : PeriodId) : Prop :=
  ∀ r, t.rows.get? id = some r → ∃ r', u.rows.get? id = some r' ∧ r'.start = r.start ∧ r'.end = r.end

omit [Blake3 H] [DecidableEq H] in
theorem RangeStays.refl (t : PeriodTable) (id : PeriodId) : RangeStays t t id := fun r hr => ⟨r, hr, rfl, rfl⟩

omit [Blake3 H] [DecidableEq H] in
theorem rangeStays_updateState (t : PeriodTable) (id : PeriodId) (state : PeriodState) (id' : PeriodId) :
    RangeStays t (t.updateState id state) id' := by
  intro r hr
  cases hq : t.rows.get? id with
  | none =>
    rw [PeriodTable.updateState_none hq]
    exact ⟨r, hr, rfl, rfl⟩
  | some q =>
    rw [PeriodTable.get?_updateState hq]
    split
    · rename_i e
      subst e
      obtain rfl : q = r := by simpa [hq] using hr
      exact ⟨_, rfl, rfl, rfl⟩
    · exact ⟨r, hr, rfl, rfl⟩

/-- An ordinary step moves no range in use. -/
theorem Effect.ranges (h : Effect B s l s') (hl : s.tables.LogInv s.tables.log) (ho : Ordinary B s l) {id : PeriodId}
    (hu : s.InUse id) : RangeStays s.tables.periods s'.tables.periods id := by
  cases h with
  | appended held ok =>
    obtain ⟨rows, subtrees, rfl, -, -⟩ := Tables.append_spec hl ok
    exact .refl _ _
  | committed hw ok =>
    obtain ⟨rows, rfl, -, -⟩ := Tables.commitBatch_spec hl ok
    exact .refl _ _
  | sequenced ok =>
    rw [(Tables.sequence_spec hl ok).2.frame]
    exact .refl _ _
  | @defined p ok =>
    intro r hr
    show ∃ r', (s.tables.periods.upsert p).rows.get? id = some r' ∧ r'.start = r.start ∧ r'.end = r.end
    rw [PeriodTable.get?_upsert]
    split
    · rename_i e
      subst e
      obtain ⟨hs, he⟩ := ho (by rw [ok]; rfl) hu r hr
      exact ⟨p, rfl, hs.symm, he.symm⟩
    · exact ⟨r, hr, rfl, rfl⟩
  | updated hc => exact rangeStays_updateState _ _ _ _
  | stored hc ok =>
    obtain rfl := Tables.insertSeal_eq_some ok
    exact rangeStays_updateState _ _ _ _
  | _ => exact .refl _ _

/-- Where the clients of a step come from. A read leaves the tables alone. -/
theorem Effect.clients (h : Effect B s l s') {c : Client H P} (hc : c ∈ s'.clients) :
    c ∈ s.clients ∨ c = .idle ∨
      ∃ c₀, s.clients[l.client]? = some c₀ ∧ Client.Reads B s.tables l c₀ c ∧ s'.tables = s.tables := by
  cases h with
  | reads hc₀ ok =>
    rcases List.mem_or_eq_of_mem_set hc with hc | rfl
    · exact .inl hc
    · exact .inr (.inr ⟨_, hc₀, ok, rfl⟩)
  | updated => exact (List.mem_or_eq_of_mem_set hc).imp_right .inl
  | refused => exact (List.mem_or_eq_of_mem_set hc).imp_right .inl
  | stored => exact (List.mem_or_eq_of_mem_set hc).imp_right .inl
  | _ => exact .inl hc

/-- Where the seals of a step come from. -/
theorem Effect.seals (h : Effect B s l s') (hl : s.tables.LogInv s.tables.log) {x : Seal H} (hx : x ∈ s'.tables.seals) :
    x ∈ s.tables.seals ∨ ∃ i position p, l = .commitSeal i ∧ Client.built p position x ∈ s.clients ∧
      s'.tables = { s.tables with
        seals := s.tables.seals ++ [x]
        periods := s.tables.periods.updateState x.period .sealed } := by
  cases h with
  | appended held ok =>
    obtain ⟨rows, subtrees, rfl, -, -⟩ := Tables.append_spec hl ok
    exact .inl hx
  | committed hw ok =>
    obtain ⟨rows, rfl, -, -⟩ := Tables.commitBatch_spec hl ok
    exact .inl hx
  | sequenced ok =>
    rw [(Tables.sequence_spec hl ok).2.frame] at hx
    exact .inl hx
  | @stored i position p y t hc ok =>
    obtain rfl := Tables.insertSeal_eq_some ok
    rcases List.mem_append.1 hx with hx | hx
    · exact .inl hx
    · obtain rfl := List.mem_singleton.1 hx
      exact .inr ⟨i, position, p, rfl, List.mem_of_getElem? hc, rfl⟩
  | _ => exact .inl hx

/-- The log is in the tables, the dates are ordered by the backend, and the
definition a client has read is the range on file. -/
structure Base (B : Backend) (s : St H P) : Prop where
  log : s.tables.LogInv s.tables.log
  held : ∀ e ∈ s.held, B.Unsigned e.bookingDate
  writers : ∀ w ∈ s.writers, ∀ e ∈ w.2, B.Unsigned e.bookingDate
  rows : ∀ r ∈ s.tables.entries, B.Unsigned r.entry.bookingDate
  definitions : ∀ c ∈ s.clients, ∀ p ∈ c.definition?, B.Unsigned p.start ∧ B.Unsigned p.end ∧
    ∃ r, s.tables.periods.rows.get? p.id = some r ∧ r.start = p.start ∧ r.end = p.end

omit [DecidableEq H] in
theorem base_initial (B : Backend) (ledger : LedgerId) (clients : Nat) : Base B (initial ledger clients : St H P) where
  log := Tables.logInv_empty ledger
  held := by simp [initial]
  writers := by simp [initial]
  rows := by simp [initial, Tables.empty]
  definitions c hc p hp := by
    rw [List.eq_of_mem_replicate hc] at hp
    cases hp

omit [DecidableEq H] in
/-- A read keeps the definition, or reads it from the calendar. -/
theorem definition_of_reads {c c' : Client H P} {t : Tables H P} {p : Period} (h : Client.Reads B t l c c')
    (hp : p ∈ c'.definition?) : p ∈ c.definition? ∨
      ∃ i id, l = .readCalendar i id ∧ t.periods.rows.get? id = some p ∧ p.id = id := by
  cases h with
  | ends => cases hp
  | transition => cases hp
  | @calendar i id k q hk ok =>
    cases hp
    have hq := (PeriodCalendar.checkSealable_eq_ok.1 ok).1
    rw [(calendarOf_of_ok hk).1.get] at hq
    exact .inr ⟨i, id, rfl, hq, t.periods.keyed _ _ hq⟩
  | _ => exact .inl hp

theorem Effect.base (h : Effect B s l s') (hb : Base B s) (ho : Ordinary B s l) : Base B s' where
  log := (h.log hb.log).choose_spec.1
  held := by
    cases h with
    | @validated draft ctx e ok =>
      intro e' he'
      rcases List.mem_append.1 he' with he' | he'
      · exact hb.held e' he'
      · rw [List.mem_singleton.1 he', (Entry.seal_eq_ok.1 ok).2]
        exact ho
    | dropped => exact fun e he => hb.held e (List.mem_filter.1 he).1
    | _ => exact hb.held
  writers := by
    cases h with
    | began held =>
      intro w hw e he
      rcases List.mem_append.1 hw with hw | hw
      · exact hb.writers w hw e he
      · rw [List.mem_singleton.1 hw] at he
        exact hb.held e (held e he)
    | committed hw ok => exact fun w hw => hb.writers w (List.mem_filter.1 hw).1
    | ended => exact fun w hw => hb.writers w (List.mem_filter.1 hw).1
    | _ => exact hb.writers
  rows := by
    cases h with
    | @appended batch out t held ok =>
      obtain ⟨rows, subtrees, rfl, -, hnew⟩ := Tables.append_spec hb.log ok
      intro r hr
      rcases List.mem_append.1 hr with hr | hr
      · exact hb.rows r hr
      · obtain ⟨-, e, he, hrow, -⟩ := hnew r hr
        rw [hrow]
        exact hb.held e (held e he)
    | @committed xid w t hw ok =>
      obtain ⟨rows, rfl, -, hnew⟩ := Tables.commitBatch_spec hb.log ok
      intro r hr
      rcases List.mem_append.1 hr with hr | hr
      · exact hb.rows r hr
      · obtain ⟨-, e, he, hrow, -⟩ := hnew r hr
        rw [hrow]
        exact hb.writers w hw e he
    | sequenced ok =>
      intro r hr
      have hm : r.toLogged ∈ s.tables.entries.map (·.toLogged) :=
        (Tables.sequence_spec hb.log ok).2.leaves ▸ List.mem_map_of_mem hr
      obtain ⟨y, hy, hyr⟩ := List.mem_map.1 hm
      rw [← hyr]
      exact hb.rows y hy
    | stored hc ok =>
      obtain rfl := Tables.insertSeal_eq_some ok
      exact hb.rows
    | _ => exact hb.rows
  definitions := by
    intro c hc p hp
    have old : ∀ c₀ ∈ s.clients, p ∈ c₀.definition? → B.Unsigned p.start ∧ B.Unsigned p.end ∧
        ∃ r, s'.tables.periods.rows.get? p.id = some r ∧ r.start = p.start ∧ r.end = p.end := fun c₀ hc₀ hp₀ => by
      obtain ⟨h₁, h₂, r, hr, hs, he⟩ := hb.definitions c₀ hc₀ p hp₀
      obtain ⟨r', hr', hs', he'⟩ := h.ranges hb.log ho (.inl ⟨c₀, hc₀, p, hp₀, rfl⟩) r hr
      exact ⟨h₁, h₂, r', hr', hs'.trans hs, he'.trans he⟩
    rcases h.clients hc with hc | rfl | ⟨c₀, hc₀, hread, ht⟩
    · exact old c hc hp
    · cases hp
    · rcases definition_of_reads hread hp with hp | ⟨i, id, rfl, hr, rfl⟩
      · exact old c₀ (List.mem_of_getElem? hc₀) hp
      · exact ⟨(ho p hr).1, (ho p hr).2, p, by rw [ht]; exact hr, rfl, rfl⟩

end DoubleEntry.L5.St
