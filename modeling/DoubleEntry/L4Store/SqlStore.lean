import DoubleEntry.L3Ledger.JournalRun
import DoubleEntry.L4Store.EntryLog
import DoubleEntry.L4Store.PeriodCalls

/-!
# Calls on the SQL stores

One call after another on the tables, each a transaction: a refused call leaves
them as they were. `append_one` is the same code for both placements of an entry
(`appendAt`): at the tail under the append lock, or deferred, for `sequence` to
place. `Lands` is what a batch does to the rows in either mode.

**Assumptions.** Deferred appends and passes are calls of Postgres only, and a batch is a vector
(`Tables.Offers`). `log_index` can number the rows.

**Results.**
* `appendOne_eq_ok`, `lands_of_append`: what an accepted batch leaves in the tables.
* `appendDeferred_rowsOf`: without positions it leaves the log alone.
* `logInv_inductive`: in every state the tables hold a log.

A call takes effect at once here. Clients whose statements overlap are in `L5Concurrency`.
-/
namespace DoubleEntry.L4

open DoubleEntry.Core DoubleEntry.L1 DoubleEntry.L2 DoubleEntry.L3

variable {H : Type} [Blake3 H] [DecidableEq H] {P : Scale}

namespace Tables

/-! ## Appending with a placement -/

/-- The body of `append_one`, for an entry that gets `placed`.
mirrors src/storage/sqlite.rs:443-578, src/storage/postgres.rs:574-728 -/
def appendAt (B : Backend) (xid : Nat) (t : Tables H P) (placed : Option (Nat × H)) (e : Entry H .balanced P) :
    Except AppendError (Recorded H × Tables H P) :=
  if t.entries.any fun r => r.entry.id = e.id ∧ r.entry.idempotencyKey ≠ e.idempotencyKey then
    .error (.duplicateId e.id)
  else do
    t.checkReverses e
    if !B.storesDates e then .error .database
    else
      match t.byKey e.idempotencyKey with
      | some existing =>
        if existing.contentHash ≠ e.contentHash then .error (.idempotencyConflict existing.entry.id)
        else .ok (⟨existing.entry.id, existing.placed.map Prod.fst, e.contentHash, false⟩, t)
      | none =>
        match t.insertRow ⟨⟨B.stored e, e.contentHash⟩, placed, xid⟩ with
        | none => .error .database
        | some t' => do
          t'.checkLimitsLoop B [] e.postings
          .ok (⟨e.id, placed.map Prod.fst, e.contentHash, true⟩, t')

/-- `append` in the deferred mode: no entry gets a position. mirrors src/storage/postgres.rs:1122-1166 -/
def appendDeferred (B : Backend) (xid : Nat) : Tables H P → List (Entry H .balanced P) →
    Except AppendError (List (Recorded H) × Tables H P)
  | t, [] => .ok ([], t)
  | t, e :: es => do
    let (recorded, t') ← t.appendAt B xid none e
    let (out, t'') ← appendDeferred B xid t' es
    .ok (recorded :: out, t'')

/-- What `append_one` did, where it succeeds. -/
structure Landed (B : Backend) (xid : Nat) (t : Tables H P) (placed : Option (Nat × H)) (e : Entry H .balanced P)
    (out : Recorded H) (t' : Tables H P) : Prop where
  clash : ∀ r ∈ t.entries, r.entry.id = e.id → r.entry.idempotencyKey = e.idempotencyKey
  reverses : t.checkReverses e = .ok ()
  dates : B.storesDates e = true
  row : (∃ r, t.byKey e.idempotencyKey = some r ∧ r.contentHash = e.contentHash ∧ t' = t ∧
      out = ⟨r.entry.id, r.placed.map Prod.fst, e.contentHash, false⟩) ∨
    (t.byKey e.idempotencyKey = none ∧ t.insertRow ⟨⟨B.stored e, e.contentHash⟩, placed, xid⟩ = some t' ∧
      t'.checkLimitsLoop B [] e.postings = .ok () ∧ out = ⟨e.id, placed.map Prod.fst, e.contentHash, true⟩)

theorem appendAt_eq_ok {B : Backend} {xid : Nat} {t t' : Tables H P} {placed : Option (Nat × H)}
    {e : Entry H .balanced P} {out : Recorded H} :
    t.appendAt B xid placed e = .ok (out, t') ↔ Landed B xid t placed e out t' := by
  have hclash : (t.entries.any fun r => decide (r.entry.id = e.id ∧ r.entry.idempotencyKey ≠ e.idempotencyKey)) = false ↔
      ∀ r ∈ t.entries, r.entry.id = e.id → r.entry.idempotencyKey = e.idempotencyKey := by
    simp only [List.any_eq_false, decide_eq_true_eq, not_and, not_not]
  unfold appendAt
  split
  · rename_i h
    simp only [reduceCtorEq, false_iff]
    exact fun hl => absurd (hclash.2 hl.clash) (by simpa using h)
  · rename_i h
    have hno := hclash.1 (by simpa using h)
    rw [bind_eq_ok]
    constructor
    · intro ⟨_, hrev, h⟩
      obtain ⟨hdates, h⟩ : B.storesDates e = true ∧ _ := by
        cases hd : B.storesDates e with
        | false => simp [hd] at h
        | true => exact ⟨rfl, by simpa only [hd, Bool.not_true, Bool.false_eq_true, if_false] using h⟩
      refine ⟨hno, hrev, hdates, ?_⟩
      cases hk : t.byKey e.idempotencyKey with
      | some r =>
        simp only [hk] at h
        split at h
        · cases h
        · rename_i hhash
          cases h
          exact .inl ⟨r, rfl, not_not.1 hhash, rfl, rfl⟩
      | none =>
        simp only [hk] at h
        cases hi : t.insertRow ⟨⟨B.stored e, e.contentHash⟩, placed, xid⟩ with
        | none => simp [hi] at h
        | some t₁ =>
          simp only [hi] at h
          obtain ⟨_, hlim, h⟩ := bind_eq_ok.1 h
          cases h
          exact .inr ⟨rfl, rfl, hlim, rfl⟩
    · intro ⟨_, hrev, hdates, hrow⟩
      refine ⟨(), hrev, ?_⟩
      rw [hdates, Bool.not_true, if_neg Bool.false_ne_true]
      rcases hrow with ⟨r, hk, hhash, rfl, rfl⟩ | ⟨hk, hi, hlim, rfl⟩
      · simp [hk, hhash]
      · simp only [hk, hi]
        exact bind_eq_ok.2 ⟨(), hlim, rfl⟩

/-- At the tail: the entry gets the next position, and the tail moves when it is new. -/
theorem appendOne_eq_ok {B : Backend} {xid : Nat} {t t' : Tables H P} {tail tail' : Tail H} {e : Entry H .balanced P}
    {out : Recorded H} : t.appendOne B xid tail e = .ok (out, t', tail') ↔
      Landed B xid t (some (tail.place e.contentHash)) e out t' ∧
      tail' = if out.isNew then tail.push e.contentHash else tail := by
  have heq : t.appendOne B xid tail e = (t.appendAt B xid (some (tail.place e.contentHash)) e).map fun x =>
      (x.1, x.2, if x.1.isNew then tail.push e.contentHash else tail) := by
    unfold appendOne appendAt
    split
    · rfl
    · cases t.checkReverses e with
      | error err => rfl
      | ok _ =>
        simp only [bind, Except.bind]
        split
        · rfl
        cases t.byKey e.idempotencyKey with
        | some r =>
          simp only
          split <;> rfl
        | none =>
          simp only
          cases t.insertRow ⟨⟨B.stored e, e.contentHash⟩, some (tail.place e.contentHash), xid⟩ with
          | none => rfl
          | some t₁ =>
            simp only
            cases t₁.checkLimitsLoop B [] e.postings <;> rfl
  rw [heq, map_eq_ok, ← appendAt_eq_ok]
  constructor
  · intro h
    obtain ⟨⟨out', t₁⟩, h, hx⟩ := h
    cases hx
    exact ⟨h, rfl⟩
  · intro h
    exact ⟨(out, t'), h.1, by rw [h.2]⟩

/-! ## What a batch does to the rows -/

/-- Entries of a batch landing one after another, in either mode. -/
inductive Lands (B : Backend) : Tables H P → List (Entry H .balanced P) → Tables H P → Prop
  | nil {t : Tables H P} : Lands B t [] t
  | replay {t t' : Tables H P} {e : Entry H .balanced P} {es : List (Entry H .balanced P)} {r : EntryRow H P}
      (key : t.byKey e.idempotencyKey = some r) (rest : Lands B t es t') : Lands B t (e :: es) t'
  | insert {t t₁ t' : Tables H P} {e : Entry H .balanced P} {es : List (Entry H .balanced P)}
      {placed : Option (Nat × H)} {xid : Nat} (key : t.byKey e.idempotencyKey = none)
      (reverses : t.checkReverses e = .ok ()) (dates : B.storesDates e = true)
      (row : t.insertRow ⟨⟨B.stored e, e.contentHash⟩, placed, xid⟩ = some t₁) (rest : Lands B t₁ es t') :
      Lands B t (e :: es) t'

omit [DecidableEq H] in
theorem Landed.lands {B : Backend} {xid : Nat} {t t₁ t' : Tables H P} {placed : Option (Nat × H)}
    {e : Entry H .balanced P} {es : List (Entry H .balanced P)} {out : Recorded H} (h : Landed B xid t placed e out t₁)
    (rest : Lands B t₁ es t') : Lands B t (e :: es) t' := by
  rcases h.row with ⟨r, hk, -, rfl, -⟩ | ⟨hk, hi, -, -⟩
  · exact .replay hk rest
  · exact .insert hk h.reverses h.dates hi rest

theorem lands_of_appendEach {B : Backend} {xid : Nat} {batch : List (Entry H .balanced P)} :
    ∀ {t t' : Tables H P} {tail tail' : Tail H} {out : List (Recorded H)},
      t.appendEach B xid tail batch = .ok (out, t', tail') → Lands B t batch t' := by
  induction batch with
  | nil =>
    intro t t' tail tail' out h
    cases h
    exact .nil
  | cons e es ih =>
    intro t t' tail tail' out h
    obtain ⟨⟨recorded, t₁, tail₁⟩, h₁, h⟩ := bind_eq_ok.1 h
    obtain ⟨⟨out', t₂, tail₂⟩, h₂, h⟩ := bind_eq_ok.1 h
    cases h
    exact (appendOne_eq_ok.1 h₁).1.lands (ih h₂)

theorem lands_of_appendDeferred {B : Backend} {xid : Nat} {batch : List (Entry H .balanced P)} :
    ∀ {t t' : Tables H P} {out : List (Recorded H)}, t.appendDeferred B xid batch = .ok (out, t') →
      Lands B t batch t' := by
  induction batch with
  | nil =>
    intro t t' out h
    cases h
    exact .nil
  | cons e es ih =>
    intro t t' out h
    obtain ⟨⟨recorded, t₁⟩, h₁, h⟩ := bind_eq_ok.1 h
    obtain ⟨⟨out', t₂⟩, h₂, h⟩ := bind_eq_ok.1 h
    cases h
    exact (appendAt_eq_ok.1 h₁).lands (ih h₂)

/-- An inline append lands its batch, and stores the accumulator. -/
theorem lands_of_append {B : Backend} {xid : Nat} {batch : List (Entry H .balanced P)} {t t' : Tables H P}
    {out : List (Recorded H)} (h : t.append B xid batch = .ok (out, t')) :
    ∃ t₁ accumulator, Lands B t batch t₁ ∧ t' = t₁.storeAccumulator accumulator := by
  obtain ⟨tail, -, h⟩ := bind_eq_ok.1 h
  obtain ⟨⟨out', t₁, tail₁⟩, h₁, h⟩ := bind_eq_ok.1 h
  cases h
  exact ⟨t₁, _, lands_of_appendEach h₁, rfl⟩

end Tables

/-! ## The store -/

namespace Tables

/-- mirrors src/storage/sqlite.rs:1236-1257, src/storage/postgres.rs:1413-1430 -/
def definePeriod (B : Backend) (t : Tables H P) (p : Period) : Except SqlError (Tables H P) :=
  (match B with
    | .sqlite => definePeriodSqlite t.periods p
    | .postgres => definePeriodPostgres t.periods p).map fun periods => { t with periods := periods }

/-- mirrors src/storage/sqlite.rs:1259-1272, src/storage/postgres.rs:1432-1448 -/
def transitionPeriod (B : Backend) (t : Tables H P) (id : PeriodId) (target : PeriodState) :
    Except SqlError (Tables H P) :=
  (L4.transitionPeriod B.dialect t.periods id target).map fun periods => { t with periods := periods }

/-- mirrors src/storage/sqlite.rs:1305-1386, src/storage/postgres.rs:1520-1604 -/
def sealPeriod (B : Backend) (t : Tables H P) (id : PeriodId) : Except SqlError (Seal H × Tables H P) := do
  let c ← calendar B.dialect t.periods
  let definition ← (c.checkSealable id).mapError .period
  let coverage := t.span B.dialect definition.start definition.end
  let closing ← t.trialBalanceThroughDate B.dialect definition.end
  let chain ← (SealChain.fromSeals t.ledger t.seals).mapError fun _ => .malformed
  let accounts ← (AccountRegistry.fromRecords t.accountRecords).mapError fun _ => .malformed
  let s := Seal.build t.ledger id coverage t.head closing accounts.commitment chain.head
  match t.insertSeal chain.seals.length s with
  | none => .error .database
  | some t' => .ok (s, t')

/-- The mutators of a SQL store, with their arguments. An append runs in a transaction
`xid`; a sequencing pass sees those before `xmin` finished. -/
inductive Call (H : Type) (P : Scale)
  | registerAccount (record : AccountRecord)
  | append (xid : Nat) (batch : List (Entry H .balanced P))
  | appendDeferred (xid : Nat) (batch : List (Entry H .balanced P))
  | sequence (xmin : Nat)
  | definePeriod (period : Period)
  | transitionPeriod (id : PeriodId) (target : PeriodState)
  | sealPeriod (id : PeriodId)

/-- The tables after a call. -/
def after (B : Backend) (t : Tables H P) : Call H P → Tables H P
  | .registerAccount record => Journal.keep (t.registerAccount B record) t
  | .append xid batch => Journal.keep ((t.append B xid batch).map Prod.snd) t
  | .appendDeferred xid batch => Journal.keep ((t.appendDeferred B xid batch).map Prod.snd) t
  | .sequence xmin => Journal.keep ((t.sequence xmin).map Prod.snd) t
  | .definePeriod period => Journal.keep (t.definePeriod B period) t
  | .transitionPeriod id target => Journal.keep (t.transitionPeriod B id target) t
  | .sealPeriod id => Journal.keep ((t.sealPeriod B id).map Prod.snd) t

omit [Blake3 H] [DecidableEq H] in
/-- Only Postgres defers the sequencing. A vector holds fewer than `2 ^ 64` postings. -/
def Offers (B : Backend) : Call H P → Prop
  | .append _ batch => ∀ e ∈ batch, e.postings.length < 2 ^ 64
  | .appendDeferred _ batch => B = .postgres ∧ ∀ e ∈ batch, e.postings.length < 2 ^ 64
  | .sequence _ => B = .postgres
  | _ => True

/-- The calls on an empty database, while `log_index`, a `BIGINT`, can number the rows. -/
def calls (B : Backend) (ledger : LedgerId) : LTS (Tables H P) (Call H P) where
  init t := t = .empty ledger
  step t k t' := Offers B k ∧ t' = t.after B k ∧ t'.entries.length < 2 ^ 63

/-- What a call does to the entries. -/
inductive Effect (B : Backend) (t : Tables H P) : Call H P → Tables H P → Prop
  | keep {k : Call H P} {t' : Tables H P} (entries : t'.entries = t.entries) (subtrees : t'.subtrees = t.subtrees) :
      Effect B t k t'
  | appended {xid : Nat} {batch : List (Entry H .balanced P)} {out : List (Recorded H)} {t' : Tables H P}
      (ok : t.append B xid batch = .ok (out, t')) : Effect B t (.append xid batch) t'
  | deferred {xid : Nat} {batch : List (Entry H .balanced P)} {out : List (Recorded H)} {t' : Tables H P}
      (ok : t.appendDeferred B xid batch = .ok (out, t')) : Effect B t (.appendDeferred xid batch) t'
  | sequenced {xmin n : Nat} {t' : Tables H P} (ok : t.sequence xmin = .ok (n, t')) : Effect B t (.sequence xmin) t'

theorem sealPeriod_eq_ok {B : Backend} {t t' : Tables H P} {id : PeriodId} {s : Seal H}
    (h : t.sealPeriod B id = .ok (s, t')) :
    t' = { t with seals := t.seals ++ [s], periods := t.periods.updateState s.period .sealed } := by
  simp only [sealPeriod, bind_eq_ok] at h
  obtain ⟨c, -, definition, -, closing, -, chain, -, accounts, -, h⟩ := h
  split at h
  · cases h
  · rename_i t₁ hi
    cases h
    exact insertSeal_eq_some hi

theorem after_effect (B : Backend) (t : Tables H P) (k : Call H P) : Effect B t k (t.after B k) := by
  have hkeep : ∀ {x : Except SqlError (Tables H P)}, (∀ t', x = .ok t' → Effect B t k t') →
      Effect B t k (Journal.keep x t) := fun {x} h => by
    cases x with
    | error e => exact .keep rfl rfl
    | ok t' => exact h t' rfl
  cases k with
  | registerAccount record =>
    rcases Journal.keep_cases (t.registerAccount B record) t with e | e
    · rw [show t.after B (.registerAccount record) = t from e]
      exact .keep rfl rfl
    · obtain ⟨accounts, he⟩ := registerAccount_eq_ok e
      rw [show t.after B (.registerAccount record) = _ from he]
      exact .keep rfl rfl
  | append xid batch =>
    rcases Journal.keep_cases ((t.append B xid batch).map Prod.snd) t with e | e
    · rw [show t.after B (.append xid batch) = t from e]
      exact .keep rfl rfl
    · obtain ⟨⟨out, t'⟩, h, he⟩ := map_eq_ok.1 e
      rw [show t.after B (.append xid batch) = t' from he.symm]
      exact .appended h
  | appendDeferred xid batch =>
    rcases Journal.keep_cases ((t.appendDeferred B xid batch).map Prod.snd) t with e | e
    · rw [show t.after B (.appendDeferred xid batch) = t from e]
      exact .keep rfl rfl
    · obtain ⟨⟨out, t'⟩, h, he⟩ := map_eq_ok.1 e
      rw [show t.after B (.appendDeferred xid batch) = t' from he.symm]
      exact .deferred h
  | sequence xmin =>
    rcases Journal.keep_cases ((t.sequence xmin).map Prod.snd) t with e | e
    · rw [show t.after B (.sequence xmin) = t from e]
      exact .keep rfl rfl
    · obtain ⟨⟨n, t'⟩, h, he⟩ := map_eq_ok.1 e
      rw [show t.after B (.sequence xmin) = t' from he.symm]
      exact .sequenced h
  | definePeriod period =>
    refine hkeep fun t' h => ?_
    obtain ⟨periods, -, rfl⟩ := map_eq_ok.1 h
    exact .keep rfl rfl
  | transitionPeriod id target =>
    refine hkeep fun t' h => ?_
    obtain ⟨periods, -, rfl⟩ := map_eq_ok.1 h
    exact .keep rfl rfl
  | sealPeriod id =>
    refine hkeep fun t' h => ?_
    obtain ⟨⟨s, t₁⟩, hs, rfl⟩ := map_eq_ok.1 h
    obtain rfl := sealPeriod_eq_ok hs
    exact .keep rfl rfl

/-! ## The log over a run -/

theorem appendDeferred_rowsOf {B : Backend} {xid : Nat} {log : List (Logged H P)} {batch : List (Entry H .balanced P)} :
    ∀ {t t' : Tables H P} {out : List (Recorded H)}, RowsOf t.entries log →
      t.appendDeferred B xid batch = .ok (out, t') → RowsOf t'.entries log ∧ t'.subtrees = t.subtrees := by
  induction batch with
  | nil =>
    intro t t' out hr h
    cases h
    exact ⟨hr, rfl⟩
  | cons e es ih =>
    intro t t' out hr h
    obtain ⟨⟨recorded, t₁⟩, h₁, h⟩ := bind_eq_ok.1 h
    obtain ⟨⟨out', t₂⟩, h₂, h⟩ := bind_eq_ok.1 h
    cases h
    rcases (appendAt_eq_ok.1 h₁).row with ⟨r, -, -, rfl, -⟩ | ⟨-, hi, -, -⟩
    · exact ih hr h₂
    · obtain ⟨hrows, hsub⟩ := ih (hr.insertUnplaced rfl hi) h₂
      obtain ⟨rfl, -, -⟩ := insertRow_eq_some hi
      exact ⟨hrows, hsub⟩

/-- The tables hold a log, and keep holding one. -/
theorem logInv_inductive (B : Backend) (ledger : LedgerId) :
    (calls B ledger : LTS (Tables H P) (Call H P)).Inductive fun t => ∃ log, t.LogInv log where
  init t h := by
    rw [show t = .empty ledger from h]
    exact ⟨[], logInv_empty ledger⟩
  step t k t' hl st := by
    obtain ⟨log, hl⟩ := hl
    obtain ⟨-, rfl, -⟩ := st
    have heffect := t.after_effect B k
    generalize t.after B k = t' at heffect
    cases heffect with
    | keep entries subtrees => exact ⟨log, logInv_of_eq hl entries subtrees⟩
    | appended ok =>
      obtain ⟨rows, subtrees, -, hl', -⟩ := append_spec hl ok
      exact ⟨_, hl'⟩
    | deferred ok =>
      obtain ⟨hrows, hsub⟩ := appendDeferred_rowsOf hl.toRowsOf ok
      exact ⟨log, hrows, by rw [hsub]; exact hl.covers⟩
    | sequenced ok => exact ⟨_, (sequence_spec hl ok).1⟩

end Tables

end DoubleEntry.L4
