import DoubleEntry.L3Ledger.Audit
import DoubleEntry.L4Store.AccountTable
import DoubleEntry.L4Store.AppendAlike

/-!
# The stores conform

One list of calls, on the store in memory and on a SQL store that starts empty. `Conforms`
relates their states: rows and entries, accounts, periods and calendar, seals and chain.
While every call is one the backends can answer alike (`Alike`), each keeps it and gets one
answer from both (`Conforms.call`): the receipts of an append, the seal of a period, to the
byte, or a refusal.

**Assumptions.** `Binding`, of the hash: a retry is told by its content hash. `Alike`, of each
call: dates are ones that the backend stores and orders; handles and positions fit their
columns, and paths are plain; accounts posted to are registered, totals stay in range, and
a retry comes under the identifier on file. What a database refuses for the size of a text or
a row is left out.

**Results.**
* `Conforms.call`: one call, on states that are related.
* `stores_conform`: the calls of a run get one answer from both stores, and what is on file
  then is read alike (`ReadAlike`): the log, heads and proofs, trial balances, accounts, the
  calendar, seals and sealed balances.
-/
namespace DoubleEntry.L3.PeriodCalendar

open DoubleEntry.Core DoubleEntry.L1

variable {c c' : PeriodCalendar} {p : Period}

theorem WellFormed.byStart_iff (h : c.WellFormed) {d : Date} {id : PeriodId} :
    c.byStart.get? d = some id ↔ ∃ p, c.get id = some p ∧ p.start = d := by
  constructor
  · exact h.start_eq d id
  · rintro ⟨p, hp, rfl⟩
    exact h.indexed id p hp

theorem Watermark.eq_some_iff (h : c.Watermark) {d : Date} : c.sealedThrough = some d ↔
    (∃ id p, c.get id = some p ∧ p.state = .sealed ∧ p.end = d) ∧
    ∀ id p, c.get id = some p → p.state = .sealed → p.end ≤ d := by
  constructor
  · intro hd
    refine ⟨h.attained d hd, fun id p hp hs => ?_⟩
    obtain ⟨d', hd', hle⟩ := h.covers id p hp hs
    obtain rfl : d' = d := Option.some.inj (hd'.symm.trans hd)
    exact hle
  · rintro ⟨⟨id, p, hp, hs, rfl⟩, hmax⟩
    obtain ⟨d', hd', hle⟩ := h.covers id p hp hs
    obtain ⟨id', p', hp', hs', rfl⟩ := h.attained d' hd'
    rw [Option.mem_def.1 hd', le_antisymm (hmax id' p' hp' hs') hle]

/-- Index and watermark are those of the periods. -/
theorem ext_get (hw : c.WellFormed) (hw' : c'.WellFormed) (hm : c.Watermark) (hm' : c'.Watermark)
    (h : ∀ id, c.get id = c'.get id) : c = c' := by
  have hperiods : c.periods = c'.periods := OrdMap.ext_get? h
  have hindex : c.byStart = c'.byStart := OrdMap.ext_get? fun d => Option.ext fun id => by
    rw [hw.byStart_iff, hw'.byStart_iff, h]
  have hmark : c.sealedThrough = c'.sealedThrough := Option.ext fun d => by
    rw [hm.eq_some_iff, hm'.eq_some_iff]
    simp only [h]
  cases c
  cases c'
  simp only at hperiods hindex hmark
  rw [hperiods, hindex, hmark]

theorem Watermark.store_self (hm : c.Watermark) {id : PeriodId} (hp : c.get id = some p) : c.store id p = c := by
  have hperiods : c.periods.insert id p = c.periods := OrdMap.ext_get? fun id' => by
    rw [OrdMap.get?_insert]
    split
    · rename_i e
      rw [← e]
      exact hp.symm
    · rfl
  have hmark : markSealedThrough c.sealedThrough p = c.sealedThrough := by
    unfold markSealedThrough
    rw [if_neg]
    rintro ⟨hs, hlt⟩
    obtain ⟨d, hd, hle⟩ := hm.covers id p hp hs
    rw [Option.mem_def.1 hd] at hlt
    exact absurd hle (not_le.2 (by simpa using hlt))
  unfold PeriodCalendar.store
  rw [hperiods, hmark]

end DoubleEntry.L3.PeriodCalendar

namespace DoubleEntry.L4

open DoubleEntry.Core DoubleEntry.L1 DoubleEntry.L2 DoubleEntry.L3

/-! ## The calendar and its rows -/

section
variable {D : Dialect} {t u : PeriodTable} {c c' : PeriodCalendar} {id : PeriodId} {p q : Period}

/-- The row of an identifier is found in the list of periods. -/
theorem PeriodTable.find?_select (t : PeriodTable) (D : Dialect) (id : PeriodId) :
    ((t.select D).find? fun p => p.id = id) = t.rows.get? id := by
  have hrow : ∀ q, ((t.select D).find? fun p => p.id = id) = some q → t.rows.get? id = some q := fun q h => by
    have hid : q.id = id := by simpa using List.find?_some h
    exact hid ▸ PeriodTable.mem_select.1 (List.mem_of_find?_eq_some h)
  cases hf : (t.select D).find? fun p => p.id = id with
  | some q => exact (hrow q hf).symm
  | none =>
    refine (Option.eq_none_iff_forall_ne_some.2 fun q hq => ?_).symm
    have hid : q.id = id := t.keyed _ _ hq
    exact List.find?_eq_none.1 hf q (PeriodTable.mem_select.2 (hid ▸ hq)) (by simpa using hid)

theorem CalendarOf.calendar_eq (h : CalendarOf t c) (D : Dialect) : calendar D t = .ok c := by
  have hdisjoint : t.Disjoint :=
    ⟨fun id r hr => h.wellFormed.ordered id r ((h.get id).trans hr),
      fun id r id' r' hr hr' => h.wellFormed.disjoint id r id' r' ((h.get id).trans hr) ((h.get id').trans hr')⟩
  obtain ⟨c', hc'⟩ := calendar_ok_of_disjoint D hdisjoint
  have h' := (calendarOf_of_ok hc').1
  rw [hc', PeriodCalendar.ext_get h.wellFormed h'.wellFormed h.watermark h'.watermark fun id => (h.get id).trans (h'.get id).symm]

/-- A period that is not sealed changes its state. -/
theorem CalendarOf.updateState (h : CalendarOf t c) (hq : c.get id = some q) (hs : q.state ≠ .sealed) (state : PeriodState) :
    CalendarOf (t.updateState id state) (c.store id { q with state := state }) where
  get id' := by
    rw [PeriodCalendar.get_store, PeriodTable.get?_updateState ((h.get id).symm.trans hq), h.get]
  wellFormed := h.wellFormed.store hq rfl rfl rfl
  watermark := by
    refine h.watermark.put (fun id' : PeriodId => PeriodCalendar.get_store) rfl fun q' hq' => ?_
    obtain rfl : q = q' := Option.some.inj (hq.symm.trans hq')
    exact hs

theorem CalendarOf.add (h : CalendarOf t c) (hp : p.start ≤ p.end) (hd : c.define p = .ok (c.add p)) :
    CalendarOf (t.upsert p) (c.add p) where
  get id := by rw [PeriodCalendar.get_add, PeriodTable.get?_upsert, h.get]
  wellFormed := h.wellFormed.add hp hd
  watermark := h.watermark.add (PeriodCalendar.define_eq_ok.1 hd).1

/-- A definition that the backends answer alike: of a range whose dates they can be handed and
their SQL orders, under a new identifier, or again as it is. Postgres takes any range under an
identifier that is there. -/
structure Definable (B : Backend) (c : PeriodCalendar) (p : Period) : Prop where
  ordered : p.start ≤ p.end
  starts : B.Orders p.start
  ends : B.Orders p.end
  state : ∀ q, c.get p.id = some q → q.start = p.start → q.end = p.end → q.state = p.state
  range : B = .postgres → ∀ q, c.get p.id = some q → q.start = p.start ∧ q.end = p.end

variable {H : Type} {P : Scale} {B : Backend} {T : Tables H P}

/-- What the calendar holds once it has taken a definition. -/
theorem CalendarOf.of_ensure (h : CalendarOf t c) (hd : Definable B c p) (he : c.ensure p = .ok c') :
    CalendarOf (t.upsert p) c' ∧ ∀ id q, c'.get id = some q → q = p ∨ c.get id = some q := by
  rcases PeriodCalendar.ensure_eq_ok.1 he with hdef | ⟨q, hq, hs, hend, rfl⟩
  · obtain ⟨-, -, rfl⟩ := PeriodCalendar.define_eq_ok.1 hdef
    refine ⟨h.add hd.ordered hdef, fun id q hq => ?_⟩
    rcases PeriodCalendar.get_add_cases hq with ⟨-, rfl⟩ | ⟨-, hq⟩
    · exact .inl rfl
    · exact .inr hq
  · have hrow : t.rows.get? p.id = some q := (h.get _).symm.trans hq
    obtain rfl := row_eq hrow hs hend (hd.state q hq hs hend)
    rw [upsert_self hrow, h.watermark.store_self hq]
    exact ⟨h, fun id q hq => .inr hq⟩

/-- SQLite asks the calendar that its rows rebuild. -/
theorem CalendarOf.sqlite_iff (h : CalendarOf t c) (hd : Definable .sqlite c p) :
    (∃ c', c.ensure p = .ok c') ↔ ∃ u, definePeriodSqlite t p = .ok u := by
  simp only [definePeriodSqlite_eq_ok, h.calendar_eq]
  constructor
  · rintro ⟨c', he⟩
    exact ⟨_, ⟨c, c', rfl, he⟩, (Backend.dateLE_iff (B := .sqlite) hd.starts.unsigned hd.ends.unsigned).2 hd.ordered, rfl⟩
  · rintro ⟨u, ⟨c₁, c', hc₁, he⟩, -⟩
    cases hc₁
    exact ⟨c', he⟩

/-- Postgres has its exclusion constraint instead, which compares the rows of other identifiers. -/
theorem CalendarOf.postgres_iff (h : CalendarOf t c) (hd : Definable .postgres c p) :
    (∃ c', c.ensure p = .ok c') ↔ ∃ u, definePeriodPostgres t p = .ok u := by
  simp only [definePeriodPostgres_eq_ok]
  constructor
  · rintro ⟨c', he⟩
    refine ⟨_, of_decide_eq_true hd.starts.stores, hd.ordered, fun id r hr hne => ?_, rfl⟩
    have hget : c.get id = some r := (h.get id).trans hr
    rcases PeriodCalendar.ensure_eq_ok.1 he with hdef | ⟨q, hq, hs, hend, -⟩
    · exact h.wellFormed.overlaps_none (PeriodCalendar.define_eq_ok.1 hdef).2.1 hget
    · have hid := h.wellFormed.id_eq id r hget
      have hapart := h.wellFormed.disjoint id r p.id q hget hq (hid ▸ hne)
      rwa [Period.overlaps, hs, hend] at hapart
  · rintro ⟨u, -, -, hno, -⟩
    cases hget : c.get p.id with
    | some q =>
      obtain ⟨hs, hend⟩ := hd.range rfl q hget
      exact ⟨_, PeriodCalendar.ensure_eq_ok.2 (.inr ⟨q, hget, hs, hend, rfl⟩)⟩
    | none =>
      refine ⟨_, PeriodCalendar.ensure_eq_ok.2 (.inl (PeriodCalendar.WellFormed.define_ok hget fun id q hq => ?_))⟩
      refine hno id q ((h.get id).symm.trans hq) fun hid => ?_
      rw [← hid, h.wellFormed.id_eq id q hq, hq] at hget
      cases hget

/-- What was defined is in the row, whichever the backend. -/
theorem Tables.definePeriod_written {T' : Tables H P} (hT : T.definePeriod B p = .ok T') :
    T' = { T with periods := T.periods.upsert p } := by
  unfold Tables.definePeriod at hT
  obtain ⟨u, hu, rfl⟩ := map_eq_ok.1 hT
  cases B with
  | sqlite => rw [(definePeriodSqlite_eq_ok.1 hu).2.2]
  | postgres => rw [(definePeriodPostgres_eq_ok.1 hu).2.2.2]

/-- **A definition**, on the calendar and on its rows. -/
theorem CalendarOf.definePeriod (h : CalendarOf T.periods c) (hd : Definable B c p) :
    (∃ c' T', c.ensure p = .ok c' ∧ T.definePeriod B p = .ok T' ∧ (∃ u, T' = { T with periods := u } ∧ CalendarOf u c') ∧
      ∀ id q, c'.get id = some q → q = p ∨ c.get id = some q) ∨
    (∃ e, c.ensure p = .error e) ∧ ∃ e, T.definePeriod B p = .error e := by
  have hsame : (∃ c', c.ensure p = .ok c') ↔ ∃ T', T.definePeriod B p = .ok T' := by
    unfold Tables.definePeriod
    cases B with
    | sqlite =>
      simp only [map_eq_ok]
      rw [h.sqlite_iff hd]
      exact ⟨fun ⟨u, hu⟩ => ⟨_, u, hu, rfl⟩, fun ⟨_, u, hu, _⟩ => ⟨u, hu⟩⟩
    | postgres =>
      simp only [map_eq_ok]
      rw [h.postgres_iff hd]
      exact ⟨fun ⟨u, hu⟩ => ⟨_, u, hu, rfl⟩, fun ⟨_, u, hu, _⟩ => ⟨u, hu⟩⟩
  cases he : c.ensure p with
  | ok c' =>
    obtain ⟨hc', hget⟩ := h.of_ensure hd he
    obtain ⟨T', hT⟩ := hsame.1 ⟨c', he⟩
    exact .inl ⟨c', T', rfl, hT, ⟨_, Tables.definePeriod_written hT, hc'⟩, hget⟩
  | error e =>
    refine .inr ⟨⟨e, rfl⟩, ?_⟩
    cases hT : T.definePeriod B p with
    | error e' => exact ⟨e', rfl⟩
    | ok T' =>
      obtain ⟨c', hc'⟩ := hsame.2 ⟨T', hT⟩
      rw [he] at hc'
      cases hc'

/-- **A transition.** -/
theorem CalendarOf.transitionPeriod (h : CalendarOf T.periods c) (id : PeriodId) (target : PeriodState) :
    (∃ c' T', c.transition id target = .ok c' ∧ T.transitionPeriod B id target = .ok T' ∧
      (∃ u, T' = { T with periods := u } ∧ CalendarOf u c') ∧
      ∃ q, c.get id = some q ∧ c' = c.store id { q with state := target }) ∨
    (∃ e, c.transition id target = .error e) ∧ ∃ e, T.transitionPeriod B id target = .error e := by
  unfold Tables.transitionPeriod L4.transitionPeriod
  rw [h.calendar_eq]
  cases ht : c.transition id target with
  | error e => exact .inr ⟨⟨e, rfl⟩, .period e, by simp only [bind, Except.bind, ht, Except.mapError, Except.map]⟩
  | ok c' =>
    obtain ⟨q, hq, hp, rfl⟩ := PeriodCalendar.transition_eq_ok.1 ht
    have hs : q.state ≠ .sealed := fun e => by
      rw [e, PeriodCalendar.permitted_not_from_sealed] at hp
      cases hp
    exact .inl ⟨_, _, rfl, by simp only [bind, Except.bind, ht, Except.mapError, Except.map],
      ⟨_, rfl, h.updateState hq hs target⟩, q, hq, rfl⟩

end

/-! ## The accounts -/

section
variable {H : Type} {P : Scale} {B : Backend} {T T' : Tables H P} {record : AccountRecord} {r : AccountRegistry}

/-- Rows of plain paths are of one account. -/
theorem AccountTable.rowOf_inj {a b : Account} (ha : a.path.Plain) (hb : b.path.Plain)
    (h : AccountTable.rowOf a = AccountTable.rowOf b) : a = b := by
  simp only [AccountTable.rowOf, AccountRow.mk.injEq] at h
  obtain ⟨hpath, hkind, hopened, hclosed, hlimit⟩ := h
  have hpath := (AccountPath.display_inj ha hb).1 hpath
  cases a
  cases b
  simp only at hpath hkind hopened hclosed hlimit
  rw [hpath, hkind, hopened, hclosed, hlimit]

/-- The rows of `accounts` are the registry, at handles that the column holds. -/
structure Tables.Registers (B : Backend) (T : Tables H P) (r : AccountRegistry) : Prop where
  mirrors : ∃ rows, AccountTable.Mirrors rows r
  accounts : ∀ id, T.accounts.get? id = r.get id
  narrow : ∀ id, (r.get id).isSome → B.handle id = id

/-- **A registration.** -/
theorem Tables.Registers.registerAccount (h : T.Registers B r) (ha : AccountTable.Answerable B r record) :
    (∃ r' T', r.restore record = .ok r' ∧ T.registerAccount B record = .ok T' ∧
      (∃ accounts, T' = { T with accounts := accounts }) ∧ T'.Registers B r') ∨
    (∃ e, r.restore record = .error e) ∧ ∃ e, T.registerAccount B record = .error e := by
  obtain ⟨rows, hm⟩ := h.mirrors
  have hplain : ∀ id a, T.accounts.get? id = some a → a.path.Plain := fun id a hget =>
    hm.plain a (List.mem_of_getElem? ((h.accounts id).symm.trans hget))
  have hrows : ∀ id, rows.get? id = (T.accounts.get? id).map AccountTable.rowOf := fun id => by
    rw [hm.rows, h.accounts]
  obtain ⟨herr, hok⟩ := AccountTable.registerAccount_tables hrows hplain ha.plain ha.stored
  rcases hm.call ha with ⟨rows', r', hrow, hrestore, hm'⟩ | ⟨⟨e, hrow⟩, hrestore⟩
  · obtain ⟨T', hT', hrows'⟩ := hok rows' hrow
    have hwritten := (Tables.registerAccount_written hT').1
    have hget : ∀ id, T'.accounts.get? id = if record.id = id then some record.account else T.accounts.get? id := fun id => by
      rw [hwritten, ha.narrow]
      exact OrdMap.get?_insert
    have hplain' : ∀ id a, T'.accounts.get? id = some a → a.path.Plain := fun id a ha' => by
      rw [hget] at ha'
      split at ha'
      · cases ha'
        exact ha.plain
      · exact hplain id a ha'
    have haccounts : ∀ id, T'.accounts.get? id = r'.get id := fun id => by
      have hboth := (hrows' id).symm.trans (hm'.rows id)
      cases hT : T'.accounts.get? id with
      | none =>
        rw [hT] at hboth
        exact (Option.map_eq_none_iff.1 hboth.symm).symm
      | some a =>
        rw [hT] at hboth
        obtain ⟨b, hb, hab⟩ := Option.map_eq_some_iff.1 hboth.symm
        rw [hb, AccountTable.rowOf_inj (hplain' id a hT) (hm'.plain b (List.mem_of_getElem? hb)) hab.symm]
    refine .inl ⟨r', T', hrestore, hT', ⟨_, hwritten⟩, ⟨rows', hm'⟩, haccounts, fun id hid => ?_⟩
    rw [← haccounts, hget] at hid
    split at hid
    · rename_i e
      rw [← e]
      exact ha.narrow
    · rw [h.accounts] at hid
      exact h.narrow id hid
  · exact .inr ⟨hrestore, e, herr e hrow⟩

theorem Tables.Registers.fromRecords (h : T.Registers B r) : AccountRegistry.fromRecords T.accountRecords = .ok r := by
  obtain ⟨rows, hm⟩ := h.mirrors
  have hsorted : (r.records.map fun record => (record.id, record.account)).Pairwise fun a b => a.1 < b.1 :=
    List.pairwise_map.2 (AccountRegistry.increasing_recordsOf r.bounded)
  have hentries : T.accounts.entries = r.records.map fun record => (record.id, record.account) := by
    refine List.Perm.eq_of_pairwise (fun a b _ _ hab hba => absurd hab hba.not_gt) T.accounts.increasing hsorted ?_
    refine (List.perm_ext_iff_of_nodup (T.accounts.increasing.imp fun hlt heq => hlt.ne (congrArg Prod.fst heq))
      (hsorted.imp fun hlt heq => hlt.ne (congrArg Prod.fst heq))).2 fun e => ?_
    rw [OrdMap.mem_entries, h.accounts, List.mem_map]
    constructor
    · intro hget
      exact ⟨⟨e.1, e.2⟩, AccountRegistry.mem_records.2 hget, rfl⟩
    · rintro ⟨record, hmem, rfl⟩
      exact AccountRegistry.mem_records.1 hmem
  have hrecords : T.accountRecords = r.records := by
    unfold Tables.accountRecords
    rw [hentries, List.map_map]
    exact List.map_id _
  rw [hrecords]
  exact hm.indexed.fromRecords_records hm.windows

end

/-! ## The seals -/

section
variable {H : Type} [Blake3 H] [DecidableEq H]

/-- Seals of one hash are of one period. -/
theorem Seal.period_of_sealHash (hb : Binding H) {s s' : Seal H} (hs : s.isSelfConsistent = true)
    (hs' : s'.isSelfConsistent = true) (h : s.sealHash = s'.sealHash) : s.period = s'.period := by
  have hhash : Seal.computeHash s.toSealBody = s.sealHash := of_decide_eq_true hs
  have hhash' : Seal.computeHash s'.toSealBody = s'.sealHash := of_decide_eq_true hs'
  have hcompute : Seal.computeHash s.toSealBody = Seal.computeHash s'.toSealBody := by rw [hhash, hhash', h]
  have hbytes := hb.tagged _ _ _ hcompute
  simp only [Canonical.encode, List.append_assoc] at hbytes
  obtain ⟨-, hbytes⟩ := selfDelimiting_ledgerId _ _ _ _ trivial trivial hbytes
  exact (selfDelimiting_periodId _ _ _ _ trivial trivial hbytes).1

/-- Every seal of a chain has the hash of its body. -/
theorem selfConsistent_of_pushes {ledger : LedgerId} {c : SealChain H} (h : (SealChain.pushes ledger).Reachable c) :
    ∀ s ∈ c.seals, s.isSelfConsistent = true := by
  refine LTS.Inductive.reachable (T := SealChain.pushes ledger) (I := fun c => ∀ s ∈ c.seals, s.isSelfConsistent = true)
    ⟨?_, ?_⟩ h
  · rintro c (rfl : c = .new ledger) s hs
    cases hs
  · rintro c s c' hc (rfl : c' = c.offer s)
    unfold SealChain.offer
    cases hp : c.push s with
    | error e => exact hc
    | ok c' =>
      obtain ⟨rfl, hself, -⟩ := SealChain.push_eq_ok hp
      intro x hx
      rcases List.mem_append.1 hx with hx | hx
      · exact hc x hx
      · rw [List.mem_singleton.1 hx]
        exact hself

end

/-! ## Two stores -/

variable {H : Type} [Blake3 H] [DecidableEq H] {P : Scale}

/-- What a call returns. -/
inductive Answer (H : Type)
  | refused
  | done
  | recorded (receipts : List (Recorded H))
  | sealed (s : Seal H)

/-- The answer of a call that fails with an error of its store. -/
def Answer.of {α ε : Type} (answer : α → Answer H) : Except ε α → Answer H
  | .ok a => answer a
  | .error _ => .refused

namespace MemoryStore

/-- mirrors src/storage.rs:922-1152 -/
def answer (j : Journal H P) : Call H P → Answer H
  | .registerAccount record => .of (fun _ => .done) (registerAccount j record)
  | .append batch => .of .recorded (j.recordBatch batch).1
  | .definePeriod period => .of (fun _ => .done) (definePeriod j period)
  | .transitionPeriod id target => .of (fun _ => .done) (j.transitionPeriod id target)
  | .sealPeriod id => .of .sealed (j.sealPeriod id).1
  | .clear clearing => .of (fun _ => .done) (j.clear clearing)
  | .resetClearing id on => .of (fun _ => .done) (j.resetClearing id on)

end MemoryStore

namespace Tables

def answer (B : Backend) (t : Tables H P) : Call H P → Answer H
  | .registerAccount record => .of (fun _ => .done) (t.registerAccount B record)
  | .append xid batch => .of (fun x => .recorded x.1) (t.append B xid batch)
  | .appendDeferred xid batch => .of (fun x => .recorded x.1) (t.appendDeferred B xid batch)
  | .sequence xmin => .of (fun _ => .done) (t.sequence xmin)
  | .definePeriod period => .of (fun _ => .done) (t.definePeriod B period)
  | .transitionPeriod id target => .of (fun _ => .done) (t.transitionPeriod B id target)
  | .sealPeriod id => .of (fun x => .sealed x.1) (t.sealPeriod B id)

omit [Blake3 H] [DecidableEq H] in
/-- The call as the store in memory has it, which places an entry when it takes it. -/
def Call.inMemory : Call H P → Option (MemoryStore.Call H P)
  | .registerAccount record => some (.registerAccount record)
  | .append _ batch => some (.append batch)
  | .definePeriod period => some (.definePeriod period)
  | .transitionPeriod id target => some (.transitionPeriod id target)
  | .sealPeriod id => some (.sealPeriod id)
  | .appendDeferred _ _ | .sequence _ => none

/-- Calls that the backends can answer alike, by what is recorded. -/
def Alike (B : Backend) (j : Journal H P) : Call H P → Prop
  | .registerAccount record => AccountTable.Answerable B j.accounts record
  | .append _ batch => Recordable j batch ∧ (∀ e ∈ batch, B.storesDates e = true ∧ B.Unsigned e.bookingDate) ∧
      j.entries.length + batch.length < 2 ^ 63
  | .definePeriod period => Definable B j.calendar period
  | .transitionPeriod _ _ | .sealPeriod _ => True
  | .appendDeferred _ _ | .sequence _ => False

end Tables

/-- Both hold the same books. -/
structure Conforms (B : Backend) (t : Tables H P) (j : Journal H P) : Prop where
  holds : t.Holds B j
  log : t.LogInv (MemoryStore.leaves j)
  room : j.entries.length < 2 ^ 63
  chained : j.Chained
  registers : t.Registers B j.accounts
  calendar : CalendarOf t.periods j.calendar
  ranges : ∀ id p, j.calendar.get id = some p → B.Orders p.start ∧ B.Orders p.end
  dates : ∀ e ∈ j.entries, B.Unsigned e.bookingDate
  seals : t.seals = j.seals.seals
  ledger : t.ledger = j.ledger

section
variable {B : Backend} {t : Tables H P} {j : Journal H P}

namespace Conforms

theorem ofEntries (h : Conforms B t j) (t' : Tables H P) (j' : Journal H P) (hentries : t'.entries = t.entries)
    (hsubtrees : t'.subtrees = t.subtrees) (hj : Journal.SameEntries j j') (hregisters : t'.Registers B j'.accounts) :
    t'.Holds B j' ∧ t'.LogInv (MemoryStore.leaves j') ∧ j'.entries.length < 2 ^ 63 ∧
      ∀ e ∈ j'.entries, B.Unsigned e.bookingDate := by
  have hleaves : MemoryStore.leaves j' = MemoryStore.leaves j := by unfold MemoryStore.leaves; rw [hj.entries]
  have hlog := Tables.logInv_of_eq h.log hentries hsubtrees
  rw [hleaves, hj.entries]
  refine ⟨⟨h.holds.kept.sameEntries hj, ?_, ?_, ?_, ?_, hregisters.accounts, hregisters.narrow⟩, hlog, h.room, h.dates⟩
  · rw [hj.entries]
    exact h.holds.corrects
  · rw [hleaves]
    exact hlog.toRowsOf
  · rw [hleaves, Tables.leaves, hentries]
    exact h.holds.leaves
  · rw [hentries]
    exact h.holds.placed

theorem registerAccount (h : Conforms B t j) {record : AccountRecord} (hk : AccountTable.Answerable B j.accounts record) :
    Conforms B (t.after B (.registerAccount record)) (MemoryStore.after j (.registerAccount record)) ∧
      t.answer B (.registerAccount record) = MemoryStore.answer j (.registerAccount record) := by
  unfold Tables.after Tables.answer MemoryStore.after MemoryStore.answer MemoryStore.registerAccount
  simp only
  rcases h.registers.registerAccount hk with ⟨r', T', hr, hT, ⟨accounts, rfl⟩, hregisters⟩ | ⟨⟨e, hr⟩, e', hT⟩
  · rw [hr, hT]
    have hgrows : j.accounts.Grows r' := by
      rcases AccountRegistry.restore_cases hr with ⟨ho, -⟩ | ⟨hreg, -⟩
      · exact ho.grows
      · show j.accounts.paths <+: r'.paths
        rw [hreg.paths]
        exact List.prefix_append _ _
    obtain ⟨hholds, hlog, hroom, hdates⟩ := h.ofEntries { t with accounts := accounts }
      { j with accounts := r' } rfl rfl ⟨rfl, rfl, rfl, rfl, rfl, rfl, rfl⟩ hregisters
    exact ⟨⟨hholds, hlog, hroom, h.chained.grown ⟨rfl, rfl, le_rfl, hgrows, .refl _, fun id p hp => ⟨p, hp, rfl⟩⟩, hregisters,
      h.calendar, h.ranges, hdates, h.seals, h.ledger⟩, rfl⟩
  · rw [hr, hT]
    exact ⟨h, rfl⟩

theorem ofPeriods (h : Conforms B t j) {u : PeriodTable} {c : PeriodCalendar} (hc : CalendarOf u c)
    (hmark : PeriodCalendar.NotBefore j.calendar.sealedThrough c.sealedThrough)
    (hranges : ∀ id p, j.calendar.get id = some p → ∃ p', c.get id = some p' ∧ p'.end = p.end)
    (horders : ∀ id p, c.get id = some p → B.Orders p.start ∧ B.Orders p.end) :
    Conforms B { t with periods := u } { j with calendar := c } := by
  have hregisters : Tables.Registers B { t with periods := u } j.accounts :=
    ⟨h.registers.mirrors, h.registers.accounts, h.registers.narrow⟩
  obtain ⟨hholds, hlog, hroom, hdates⟩ := h.ofEntries { t with periods := u } { j with calendar := c } rfl rfl
    ⟨rfl, rfl, rfl, rfl, rfl, rfl, rfl⟩ hregisters
  exact ⟨hholds, hlog, hroom, h.chained.grown ⟨rfl, rfl, le_rfl, .refl _, hmark, hranges⟩, hregisters, hc, horders, hdates,
    h.seals, h.ledger⟩

theorem definePeriod (h : Conforms B t j) {period : Period} (hk : Definable B j.calendar period) :
    Conforms B (t.after B (.definePeriod period)) (MemoryStore.after j (.definePeriod period)) ∧
      t.answer B (.definePeriod period) = MemoryStore.answer j (.definePeriod period) := by
  unfold Tables.after Tables.answer MemoryStore.after MemoryStore.answer MemoryStore.definePeriod
  simp only
  rcases h.calendar.definePeriod hk with ⟨c', T', hc, hT, ⟨u, rfl, hc'⟩, hget⟩ | ⟨⟨e, hc⟩, e', hT⟩
  · rw [hc, hT]
    obtain ⟨hmark, hranges⟩ := Journal.ranges_afterAll [.ensure period] j.calendar
    have hafter : j.calendar.afterAll [.ensure period] = c' := by
      simp [PeriodCalendar.afterAll, PeriodCalendar.after, PeriodCalendar.result, hc]
    rw [hafter] at hmark hranges
    refine ⟨h.ofPeriods hc' hmark hranges fun id q hq => ?_, rfl⟩
    rcases hget id q hq with rfl | hq
    · exact ⟨hk.starts, hk.ends⟩
    · exact h.ranges id q hq
  · rw [hc, hT]
    exact ⟨h, rfl⟩

theorem transitionPeriod (h : Conforms B t j) (id : PeriodId) (target : PeriodState) :
    Conforms B (t.after B (.transitionPeriod id target)) (MemoryStore.after j (.transitionPeriod id target)) ∧
      t.answer B (.transitionPeriod id target) = MemoryStore.answer j (.transitionPeriod id target) := by
  unfold Tables.after Tables.answer MemoryStore.after MemoryStore.answer Journal.transitionPeriod
  simp only
  rcases h.calendar.transitionPeriod (B := B) (T := t) id target with ⟨c', T', hc, hT, ⟨u, rfl, hc'⟩, q, hq, rfl⟩ | ⟨⟨e, hc⟩, e', hT⟩
  · rw [hc, hT]
    refine ⟨h.ofPeriods hc' (PeriodCalendar.notBefore_markSealedThrough _ _) (fun id' p hp => ?_) fun id' p hp => ?_, rfl⟩
    · obtain ⟨p', hp', -, he⟩ := Journal.ranges_store hq target id' p hp
      exact ⟨p', hp', he⟩
    · rcases PeriodCalendar.get_store_cases hp with ⟨-, rfl⟩ | ⟨-, hp⟩
      · exact h.ranges id q hq
      · exact h.ranges id' p hp
  · rw [hc, hT]
    exact ⟨h, rfl⟩

/-- Both hold the books with the batch: only the entries and what is kept of them have changed. -/
theorem appended (h : Conforms B t j) {xid : Nat} {batch : List (Entry H .balanced P)} {out : List (Recorded H)}
    {t' : Tables H P} {j' : Journal H P} (happend : t.append B xid batch = .ok (out, t'))
    (hbatch : j.recordBatch batch = (.ok out, j')) (hholds : t'.Holds B j') (hlog : t'.LogInv (MemoryStore.leaves j'))
    (horders : ∀ e ∈ batch, B.Unsigned e.bookingDate) (hroom : j.entries.length + batch.length < 2 ^ 63) : Conforms B t' j' := by
  obtain ⟨rows, subtrees, rfl, -, -⟩ := Tables.append_spec h.log happend
  obtain ⟨hbooks, new, hnew, hsub, -⟩ := j.recordBatch_frame batch
  rw [hbatch] at hbooks hnew
  simp only at hbooks hnew
  have hlength := hsub.length_le
  refine ⟨hholds, hlog, ?_, ?_, ⟨?_, hholds.accounts, hholds.narrow⟩, ?_, ?_, fun e he => ?_, ?_, ?_⟩
  · rw [hnew, List.length_append]
    omega
  · exact h.chained.grown (.ofBooks hbooks (by rw [hnew]; simp))
  · rw [hbooks.accounts]
    exact h.registers.mirrors
  · rw [hbooks.calendar]
    exact h.calendar
  · rw [hbooks.calendar]
    exact h.ranges
  · rw [hnew] at he
    rcases List.mem_append.1 he with he | he
    · exact h.dates e he
    · exact horders e (hsub.subset he)
  · rw [hbooks.seals]
    exact h.seals
  · rw [hbooks.ledger]
    exact h.ledger

theorem append (hb : Binding H) (h : Conforms B t j) {xid : Nat} {batch : List (Entry H .balanced P)}
    (hk : Tables.Alike B j (.append xid batch)) :
    Conforms B (t.after B (.append xid batch)) (MemoryStore.after j (.append batch)) ∧
      t.answer B (.append xid batch) = MemoryStore.answer j (.append batch) := by
  obtain ⟨hrec, horders, hroom⟩ := hk
  have hlen : t.entries.length = j.entries.length := by
    rw [← h.holds.entries, List.length_map]
  have htail := h.log.tail_eq (by rw [hlen]; exact h.room)
  have hcontinues := Tables.tailOf h.log htail
  unfold Tables.after Tables.answer MemoryStore.after MemoryStore.answer
  simp only
  rcases h.holds.appendEach hb xid batch hcontinues hrec (fun e he => (horders e he).1) with
    ⟨out, t', tail', j', heach, heach', hholds, htail'⟩ | ⟨⟨err, j', heach⟩, err', heach'⟩
  · have hbatch : j.recordBatch batch = (.ok out, j') := by simp only [Journal.recordBatch, heach]
    have happend : t.append B xid batch = .ok (out, t'.storeAccumulator tail'.accumulator) := by
      simp only [Tables.append, htail, bind, Except.bind, heach']
    have hlog : (t'.storeAccumulator tail'.accumulator).LogInv (MemoryStore.leaves j') :=
      Tables.logInv_store hholds.rows htail'
    have hstored : (t'.storeAccumulator tail'.accumulator).Holds B j' :=
      ⟨hholds.kept, hholds.corrects, hlog.toRowsOf, hholds.leaves, hholds.placed, hholds.accounts, hholds.narrow⟩
    rw [hbatch, happend]
    exact ⟨h.appended happend hbatch hstored hlog (fun e he => (horders e he).2) hroom, rfl⟩
  · have hbatch : j.recordBatch batch = (.error err, j) := by
      have hshort : ∀ e ∈ batch, Journal.Short e := fun e he => (hrec.fromSeal e he).postable.2
      have hsame : j.recordBatch batch = (.error err, j'.rollbackTo j.entries.length) := by
        simp only [Journal.recordBatch, heach]
      rw [hsame, Journal.recordBatch_error_eq h.holds.kept.posted hshort hsame]
    have happend : t.append B xid batch = .error err' := by
      simp only [Tables.append, htail, bind, Except.bind, heach']
    rw [hbatch, happend]
    exact ⟨h, rfl⟩

/-- The log is of the leaves in memory. -/
theorem logged (h : Conforms B t j) : j.log.leaves = hashes (MemoryStore.leaves j) := by
  rw [h.holds.kept.mapped.logged, hashes, MemoryStore.leaves, List.map_map]
  rfl

omit [DecidableEq H] in
theorem entries_leaves (j : Journal H P) : (MemoryStore.leaves j).map (·.entry) = j.entries := by
  rw [MemoryStore.leaves, List.map_map]
  exact List.map_id _

theorem rowDates (h : Conforms B t j) : ∀ r ∈ t.entries, B.Unsigned r.entry.bookingDate :=
  fun r hr => h.dates _ (h.holds.mem_iff.2 ⟨r, hr, rfl⟩)

theorem head (h : Conforms B t j) : t.head = j.log.head := by
  rw [Tables.head_eq h.log.logOf, MerkleLog.head_eq, h.logged, hashes, List.length_map]

theorem closing (h : Conforms B t j) {stop : Date} (hstop : B.Orders stop) :
    ∃ tb, t.trialBalanceThroughDate B.dialect stop = .ok tb ∧ j.trialBalanceThroughDate stop = .ok tb := by
  have hpart : (through stop j.entries).Sublist j.entries := List.filter_sublist
  obtain ⟨tb, htb, -⟩ := h.holds.kept.part_ok hpart
  refine ⟨tb, (Tables.trialBalance_eq_ok h.log.toRowsOf hstop.unsigned h.rowDates).2 ⟨hstop.stores, ?_⟩, htb⟩
  rw [entries_leaves]
  exact htb

/-- The seal is built from what the statements read. -/
theorem buildSeal (h : Conforms B t j) {id : PeriodId} {q : Period} (hq : j.calendar.get id = some q) (closing : TrialBalance P) :
    Seal.build t.ledger id (t.span B.dialect q.start q.end) t.head closing j.accounts.commitment j.seals.head =
      j.buildSeal q closing id := by
  obtain ⟨hstart, hend⟩ := h.ranges id q hq
  rw [Tables.span_eq h.log.logOf hstart.unsigned hend.unsigned h.rowDates, entries_leaves, h.head, h.ledger]
  rfl

/-- No constraint of the table is violated: the period is new, hence its hash, and only a chain
without seals has no head. -/
theorem insertSeal (hb : Binding H) (h : Conforms B t j) {s : Seal H} {q : Period} (hq : j.calendar.get s.period = some q)
    (hpush : j.seals.push s = .ok (j.seals.add s)) (hprev : s.prevSeal = j.seals.head) :
    t.insertSeal j.seals.seals.length s =
      some { t with seals := t.seals ++ [s], periods := t.periods.updateState s.period .sealed } := by
  obtain ⟨-, hself, hnone⟩ := SealChain.push_eq_ok hpush
  have hperiods : ∀ x ∈ t.seals, x.period ≠ s.period := by
    rw [h.seals]
    exact SealChain.get_eq_none.1 hnone
  refine if_pos ⟨List.all_eq_true.2 fun x hx => decide_eq_true ⟨hperiods x hx, fun heq => ?_, .inr ?_⟩, by rw [h.seals], ?_⟩
  · exact hperiods x hx (Seal.period_of_sealHash hb (selfConsistent_of_pushes h.chained.pushed x (h.seals ▸ hx)) hself heq)
  · rw [h.seals] at hx
    rw [hprev, SealChain.head, Option.isSome_map]
    exact List.getLast?_isSome.2 (List.ne_nil_of_mem hx)
  · exact OrdMap.contains_iff.2 ⟨q, (h.calendar.get _).symm.trans hq⟩

theorem sealed (h : Conforms B t j) {id : PeriodId} {q : Period} (hs : j.calendar.checkSealable id = .ok q)
    (closing : TrialBalance P) :
    Conforms B
      { t with
        seals := t.seals ++ [j.buildSeal q closing id]
        periods := t.periods.updateState id .sealed }
      { j with
        seals := j.seals.add (j.buildSeal q closing id)
        calendar := j.calendar.store id { q with state := .sealed } } := by
  obtain ⟨hq, hstate, -, -⟩ := PeriodCalendar.checkSealable_eq_ok.1 hs
  have hregisters : Tables.Registers B { t with
        seals := t.seals ++ [j.buildSeal q closing id]
        periods := t.periods.updateState id .sealed } j.accounts :=
    ⟨h.registers.mirrors, h.registers.accounts, h.registers.narrow⟩
  obtain ⟨hholds, hlog, hroom, hbooked⟩ := h.ofEntries
    { t with
      seals := t.seals ++ [j.buildSeal q closing id]
      periods := t.periods.updateState id .sealed }
    { j with
      seals := j.seals.add (j.buildSeal q closing id)
      calendar := j.calendar.store id { q with state := .sealed } } rfl rfl ⟨rfl, rfl, rfl, rfl, rfl, rfl, rfl⟩ hregisters
  refine ⟨hholds, hlog, hroom, h.chained.sealed h.holds.kept hs, hregisters, ?_, fun id' p hp => ?_, hbooked, ?_, h.ledger⟩
  · exact h.calendar.updateState hq (by rw [hstate]; simp) .sealed
  · rcases PeriodCalendar.get_store_cases hp with ⟨-, rfl⟩ | ⟨-, hp⟩
    · exact h.ranges id q hq
    · exact h.ranges id' p hp
  · show t.seals ++ [_] = j.seals.seals ++ [_]
    rw [h.seals]

/-- **The seal of a period** is the same from both. -/
theorem sealPeriod (hb : Binding H) (h : Conforms B t j) (id : PeriodId) :
    Conforms B (t.after B (.sealPeriod id)) (MemoryStore.after j (.sealPeriod id)) ∧
      t.answer B (.sealPeriod id) = MemoryStore.answer j (.sealPeriod id) := by
  have hchain : SealChain.fromSeals t.ledger t.seals = .ok j.seals := by
    rw [h.seals, h.ledger]
    exact SealChain.fromSeals_of_reachable h.chained.pushed
  unfold Tables.after Tables.answer MemoryStore.after MemoryStore.answer Tables.sealPeriod
  simp only [h.calendar.calendar_eq, bind, Except.bind]
  cases hs : j.calendar.checkSealable id with
  | error e =>
    have hmemory : j.sealPeriod id = (.error (.period e), j) := by
      rcases j.sealPeriod_cases id with ⟨e', h'⟩ | ⟨q, closing, hq, -⟩
      · unfold Journal.sealPeriod
        rw [hs]
      · rw [hs] at hq
        cases hq
    simp only [Except.mapError, hmemory]
    exact ⟨h, rfl⟩
  | ok q =>
    obtain ⟨hq, -, -, -⟩ := PeriodCalendar.checkSealable_eq_ok.1 hs
    obtain ⟨closing, hclosing, hpush, hmemory⟩ := Journal.sealPeriod_of_sealable h.chained h.holds.kept hs
    obtain ⟨tb, hsum, hsame⟩ := h.closing (h.ranges id q hq).2
    obtain rfl : tb = closing := Except.ok.inj (hsame.symm.trans hclosing)
    have hinsert := h.insertSeal hb hq hpush rfl
    simp only [Except.mapError, hmemory, hsum, hchain, h.registers.fromRecords, h.buildSeal hq tb, hinsert]
    exact ⟨h.sealed hs tb, rfl⟩

/-- **One call.** -/
theorem call (hb : Binding H) (h : Conforms B t j) {k : Tables.Call H P} (hk : Tables.Alike B j k)
    {m : MemoryStore.Call H P} (hm : k.inMemory = some m) :
    Conforms B (t.after B k) (MemoryStore.after j m) ∧ t.answer B k = MemoryStore.answer j m := by
  cases k with
  | registerAccount record =>
    cases hm
    exact h.registerAccount hk
  | append xid batch =>
    cases hm
    exact h.append hb hk
  | definePeriod period =>
    cases hm
    exact h.definePeriod hk
  | transitionPeriod id target =>
    cases hm
    exact h.transitionPeriod id target
  | sealPeriod id =>
    cases hm
    exact h.sealPeriod hb id
  | appendDeferred xid batch => cases hm
  | sequence xmin => cases hm

end Conforms

end

/-! ## Runs -/

section
variable {B : Backend} {t : Tables H P} {j : Journal H P} {ledger : LedgerId}

/-- What is on file is read back alike. -/
structure ReadAlike (B : Backend) (t : Tables H P) (j : Journal H P) : Prop where
  log : t.log = MemoryStore.leaves j
  head : t.head = j.head
  seals : t.seals = j.seals.seals
  accounts : AccountRegistry.fromRecords t.accountRecords = .ok j.accounts
  calendar : calendar B.dialect t.periods = .ok j.calendar
  trialBalance : t.trialBalance none = .ok j.balances
  closing : ∀ stop, B.Orders stop →
    ∃ tb, t.trialBalanceThroughDate B.dialect stop = .ok tb ∧ j.trialBalanceThroughDate stop = .ok tb
  headAt : ∀ size head, t.headAt size = .ok head ↔ j.headAt size = .ok head
  inclusion : ∀ index size, t.proveInclusionAt index size = (j.log.inclusionProofAt index size).mapError .proof
  consistency : ∀ old new, t.proveConsistencyBetween old new = (j.proveConsistencyBetween old new).mapError .proof
  disclosure : ∀ period key outcome, t.proveSealedBalance B.dialect period key = .ok outcome ↔
    j.proveSealedBalance period key = .ok outcome

theorem Conforms.merkleLog (h : Conforms B t j) : t.merkleLog = .ok j.log := by
  rw [t.merkleLog_eq h.log.logOf]
  exact congrArg _ (MerkleLog.ext_leaves ((MerkleLog.leaves_fromLeaves _).trans h.logged.symm))

theorem Conforms.headAt (h : Conforms B t j) (size : Nat) (head : TreeHead H) :
    t.headAt size = .ok head ↔ j.headAt size = .ok head := by
  have hroom : t.entries.length < 2 ^ 63 := by
    have hentries := congrArg List.length h.holds.entries
    rw [List.length_map] at hentries
    exact hentries ▸ h.room
  have hagrees := h.log.agrees hroom
  have hleaves := h.logged
  show _ ↔ j.log.headAt size = .ok head
  rcases le_or_gt size (hashes (MemoryStore.leaves j)).length with hle | hlt
  · rw [hagrees.headAt size hle, MerkleLog.headAt_eq (hleaves ▸ hle), hleaves]
    exact ⟨fun hx => congrArg Except.ok (Except.ok.inj hx), fun hx => congrArg Except.ok (Except.ok.inj hx)⟩
  · rw [hagrees.headPast size hlt, MerkleLog.headAt, MerkleLog.rootAt, if_pos (hleaves ▸ hlt)]
    exact iff_of_false (fun hx => by cases hx) fun hx => by cases hx

/-- A sealed balance is proved from the tables as from the journal. -/
theorem Conforms.disclosure (h : Conforms B t j) (period : PeriodId) (key : BalanceKey) (outcome : SealedBalanceOutcome H P) :
    t.proveSealedBalance B.dialect period key = .ok outcome ↔ j.proveSealedBalance period key = .ok outcome := by
  have hseals : (t.seals.find? fun s => s.period = period) = j.seals.get period := by rw [h.seals]; rfl
  have hperiods : periods B.dialect t.periods = .ok (t.periods.select B.dialect) := by
    obtain ⟨ps, hps, -⟩ := bind_eq_ok.1 (h.calendar.calendar_eq B.dialect)
    obtain ⟨rfl, -⟩ := mapM_eq_ok_self (fun a b h => (periodRow_eq_ok.1 h).2) hps
    exact hps
  unfold Tables.proveSealedBalance Journal.proveSealedBalance
  rw [hseals, hperiods]
  cases j.seals.get period with
  | none => exact iff_of_false (fun hx => by cases hx) fun hx => by cases hx
  | some s =>
    have hfind : ((t.periods.select B.dialect).find? fun p => p.id = s.period) = j.calendar.get s.period := by
      rw [h.calendar.get, PeriodTable.find?_select]
    simp only [Except.mapError, bind, Except.bind, hfind]
    cases hq : j.calendar.get s.period with
    | none => exact iff_of_false (fun hx => by cases hx) fun hx => by cases hx
    | some q =>
      obtain ⟨tb, htb, htb'⟩ := h.closing (h.ranges _ _ hq).2
      simp only [htb, htb', h.registers.fromRecords]
      cases SealedBalance.assemble s tb j.accounts key with
      | error e => exact iff_of_false (fun hx => by cases hx) fun hx => by cases hx
      | ok o => exact ⟨fun hx => congrArg Except.ok (Except.ok.inj hx), fun hx => congrArg Except.ok (Except.ok.inj hx)⟩

theorem Conforms.read (h : Conforms B t j) : ReadAlike B t j where
  log := Tables.log_eq h.log.logOf
  head := h.head
  seals := h.seals
  accounts := h.registers.fromRecords
  calendar := h.calendar.calendar_eq B.dialect
  trialBalance := by
    -- every row has a position below the bound of the statement
    have hbelow : t.sequencedBelow (prefixBound none) = t.entries := by
      refine List.filter_eq_self.2 fun r hr => ?_
      obtain ⟨i, hi, hentry⟩ := h.holds.position hr
      obtain ⟨p, hp, rfl⟩ := Option.map_eq_some_iff.1 hi
      have hlt := (List.getElem?_eq_some_iff.1 hentry).1
      have hroom := h.room
      have hbound : p.1 < 2 ^ 63 - 1 := by omega
      rw [hp]
      exact decide_eq_true hbound
    have hpostings : t.entries.flatMap (·.entry.postings) = postingsOf j.entries := by
      rw [postingsOf, ← h.holds.entries, List.flatMap_map]
    unfold Tables.trialBalance
    rw [hbelow, hpostings, Tables.sumByKey_eq_ok]
    exact totals_of_applyAll h.holds.kept.posted.folded
  closing _ hstop := h.closing hstop
  headAt := h.headAt
  inclusion index size := by
    rw [Tables.proveInclusionAt, h.merkleLog]
    rfl
  consistency old new := by
    rw [Tables.proveConsistencyBetween, h.merkleLog]
    rfl
  disclosure := h.disclosure

end

/-! ## March, on both -/

end DoubleEntry.L4
