import DoubleEntry.L4Store.ClearingCalls

/-!
# Clearings under concurrency

`clear` is a transaction. It takes a lock, reads the facts of each posting by a
statement of its own, and inserts the clearing and its items. The lock is the write
lock of SQLite (`BEGIN IMMEDIATE`), or the append lock on Postgres, which a reset does
not take: that is one `UPDATE`. Any number of clients make the calls, a statement a
step, and other calls on the store commit in between. On Postgres a statement sees what is
committed when it runs, and what its own transaction inserted; on SQLite nothing else
commits while the lock is held.

The statements of a `clear` (`src/storage/sqlite.rs:1454-1534`, `src/storage/postgres.rs:1681-1758`):
* `taken`: the identifier must be new;
* `facts`: one item, its posting and what is applied to it;
* `insertClearing`: once the sides agree, the row of the clearing;
* `insertItem`: its items, one by one, and then the transaction commits.

Only the holder of the lock adds clearings. A reset between its reads and its inserts makes
what was read to be applied less, so what passed still passes (`Progress.mono`). The calls
that returned, in the order they committed, are calls that the register in memory accepts,
and it has the residuals that the database computes (`clearings_refine`).

**Assumptions.** On SQLite nothing else commits while the write lock is held; on Postgres only
clearings wait for each other. Entries are sealed, so that postings are positive.

**Results.**
* `Progress.statement`: what a client found after one more statement.
* `commit`, `reset`, `step`: each moves the register as the call in memory does, or not at all.
* `clearings_refine`: every committed state, for any interleaving.
-/
namespace DoubleEntry.L5.SqlClearings

open DoubleEntry.Core DoubleEntry.L1 DoubleEntry.L2 DoubleEntry.L3 DoubleEntry.L4

/-! ## The calls -/

/-- The next statement of a `clear`. -/
inductive Next (P : Scale)
  | taken
  | facts (sides : Balance P) (item : ClearedItem P) (left : List (ClearedItem P))
  | insertClearing
  | insertItem (item : ClearedItem P) (left : List (ClearedItem P))

/-- A client between its statements; `own` is what its transaction inserted. -/
inductive Client (P : Scale)
  | idle
  | clearing (c : Clearing P) (next : Next P) (own : ClearingTables P)
  | committing (c : Clearing P) (own : ClearingTables P)

/-- What is committed, the holder of the lock, the clients, and the calls that returned `Ok` as
events, in the order they committed. -/
structure St (H : Type) (P : Scale) where
  tables : Tables H P
  clearings : ClearingTables P
  lock : Option Nat
  clients : Nat → Client P
  accepted : List (ClearingEvent P)

inductive Lbl (H : Type) (P : Scale)
  /-- Takes the lock. -/
  | begin (i : Nat) (c : Clearing P)
  | statement (i : Nat)
  /-- A lost connection, a refusal of the database. -/
  | fail (i : Nat)
  | reset (id : ClearingId) (on : Date)
  /-- Another call on the store. -/
  | call (k : Tables.Call H P)

variable {H : Type} {P : Scale}

/-- What a statement of a transaction sees. -/
def view (ct own : ClearingTables P) : ClearingTables P := ⟨ct.clearings ++ own.clearings, ct.items ++ own.items⟩

/-- The facts of the next item; the sides must agree after the last. -/
def afterFacts (c : Clearing P) (own : ClearingTables P) (sides : Balance P) :
    List (ClearedItem P) → Except ClearError (Client P)
  | item :: left => .ok (.clearing c (.facts sides item left) own)
  | [] =>
    if sides.isBalanced = false then .error (.clearing (.unbalanced sides.debits.minor sides.credits.minor P.val))
    else .ok (.clearing c .insertClearing own)

def afterItem (c : Clearing P) (own : ClearingTables P) : List (ClearedItem P) → Client P
  | item :: left => .clearing c (.insertItem item left) own
  | [] => .committing c own

/-- One statement of a `clear`, and the client after it.
mirrors src/storage/sqlite.rs:1454-1534, src/storage/postgres.rs:1681-1758 -/
def statement (B : Backend) (t : Tables H P) (ct : ClearingTables P) (c : Clearing P) (own : ClearingTables P) :
    Next P → Except ClearError (Client P)
  | .taken =>
    if (view ct own).clearings.any fun row => row.id = c.id then .error (.clearing (.duplicateId c.id))
    else afterFacts c own .zero c.items
  | .facts sides item left => do
    let facts ← t.postingFacts B (view ct own) item.posting
    (checkFacts c item facts).mapError .clearing
    let sides ← (sides.add facts.direction item.applied).mapError fun e => .clearing (.money e)
    afterFacts c own sides left
  | .insertClearing =>
    if (view ct own).admitsClearing B t (B.clearingRow c) then
      .ok (afterItem c { own with clearings := own.clearings ++ [B.clearingRow c] } c.items)
    else .error .database
  | .insertItem item left =>
    if (view ct own).admitsItem t (B.itemRow c.id item) then
      .ok (afterItem c { own with items := own.items ++ [B.itemRow c.id item] } left)
    else .error .database

namespace St

def setClient (s : St H P) (i : Nat) (client : Client P) : St H P :=
  { s with clients := Function.update s.clients i client }

def release (s : St H P) (i : Nat) : St H P :=
  { s with lock := none, clients := Function.update s.clients i .idle }

def commit (s : St H P) (i : Nat) (c : Clearing P) (own : ClearingTables P) : St H P :=
  { s with
    clearings := view s.clearings own
    lock := none
    clients := Function.update s.clients i .idle
    accepted := s.accepted ++ [.cleared c] }

/-- SQLite has one writer. -/
def Blocked (B : Backend) (s : St H P) : Prop := B = .sqlite ∧ s.lock.isSome

instance (B : Backend) (s : St H P) : Decidable (s.Blocked B) := inferInstanceAs (Decidable (_ ∧ _))

end St

section
variable [Blake3 H] [DecidableEq H]

/-- A refused call ends where it is refused. -/
def step (B : Backend) (s : St H P) : Lbl H P → Option (St H P)
  | .begin i c =>
    match s.clients i, s.lock with
    | .idle, none =>
      match checkForm c with
      | .error _ => some s
      | .ok _ => some { s with lock := some i, clients := Function.update s.clients i (.clearing c .taken .empty) }
    | _, _ => none
  | .statement i =>
    match s.clients i with
    | .idle => none
    | .committing c own => some (s.commit i c own)
    | .clearing c next own =>
      match statement B s.tables s.clearings c own next with
      | .error _ => some (s.release i)
      | .ok client => some (s.setClient i client)
  | .fail i =>
    match s.clients i with
    | .idle => some s
    | _ => some (s.release i)
  | .reset id on =>
    if s.Blocked B then none
    else
      match s.clearings.resetClearing B id on with
      | .error _ => some s
      | .ok clearings => some { s with clearings := clearings, accepted := s.accepted ++ [.reset id on] }
  | .call k => if s.Blocked B then none else some { s with tables := s.tables.after B k }

/-- The other calls are those of the store, on sealed entries. -/
def Allowed (B : Backend) (s : St H P) : Lbl H P → Prop
  | .call k => Tables.Offers B k ∧ Tables.SealedBatches s.tables k ∧ (s.tables.after B k).entries.length < 2 ^ 63
  | _ => True

/-- Any books, nothing cleared, every client idle. -/
def system (B : Backend) (ledger : LedgerId) : LTS (St H P) (Lbl H P) :=
  (LTS.ofFn (fun s => ((Tables.calls B ledger).restrict Tables.SealedBatches).Reachable s.tables ∧ s.clearings = .empty ∧
    s.lock = none ∧ (∀ i, s.clients i = .idle) ∧ s.accepted = []) (step B)).restrict (Allowed B)

end

/-! ## What a client has done -/

/-- What the statements before the next one found, as the register has it now. -/
inductive Progress (B : Backend) (lookup : PostingRef → Option (Posting P)) (r : ClearingRegister P) : Client P → Prop
  | idle : Progress B lookup r .idle
  | taken {c : Clearing P} (form : checkForm c = .ok ()) : Progress B lookup r (.clearing c .taken .empty)
  | facts {c : Clearing P} {sides : Balance P} {item : ClearedItem P} {left done : List (ClearedItem P)}
      {seen : List PostingRef} (form : checkForm c = .ok ()) (fresh : r.byId.get? c.id = none)
      (items : c.items = done ++ item :: left)
      (passed : done.foldlM (r.checkItem lookup c) ([], .zero) = .ok (seen, sides)) :
      Progress B lookup r (.clearing c (.facts sides item left) .empty)
  | insertClearing {c : Clearing P} {r' : ClearingRegister P} (accepts : r.clear c lookup = .ok r') :
      Progress B lookup r (.clearing c .insertClearing .empty)
  | insertItem {c : Clearing P} {r' : ClearingRegister P} {item : ClearedItem P} {left done : List (ClearedItem P)}
      (accepts : r.clear c lookup = .ok r') (items : c.items = done ++ item :: left) :
      Progress B lookup r (.clearing c (.insertItem item left) ⟨[B.clearingRow c], done.map (B.itemRow c.id)⟩)
  | committing {c : Clearing P} {r' : ClearingRegister P} (accepts : r.clear c lookup = .ok r') :
      Progress B lookup r (.committing c ⟨[B.clearingRow c], c.items.map (B.itemRow c.id)⟩)

namespace Progress

variable {B : Backend} {lookup lookup' : PostingRef → Option (Posting P)} {r s : ClearingRegister P} {client : Client P}

/-- **What was found stays found** where no clearing is added, less is applied and more postings are there. -/
theorem mono (hmore : ∀ ref p, lookup ref = some p → lookup' ref = some p)
    (hle : ∀ ref, 0 ≤ (s.appliedTo ref).minor ∧ (s.appliedTo ref).minor ≤ (r.appliedTo ref).minor)
    (hids : s.byId = r.byId) (h : Progress B lookup r client) : Progress B lookup' s client := by
  have hclear : ∀ {c r'}, r.clear c lookup = .ok r' → ∃ s', s.clear c lookup' = .ok s' := fun {c r'} hc => by
    have hfresh := (ClearingRegister.clear_eq_ok.1 hc).1
    exact ClearingRegister.clear_mono hmore hle (by rw [hids]; exact hfresh) hc
  cases h with
  | idle => exact .idle
  | taken form => exact .taken form
  | facts form fresh items passed =>
    exact .facts form (by rw [hids]; exact fresh) items (ClearingRegister.checkItems_mono hmore hle passed)
  | insertClearing accepts =>
    obtain ⟨s', hs'⟩ := hclear accepts
    exact .insertClearing hs'
  | insertItem accepts items =>
    obtain ⟨s', hs'⟩ := hclear accepts
    exact .insertItem hs' items
  | committing accepts =>
    obtain ⟨s', hs'⟩ := hclear accepts
    exact .committing hs'

theorem afterFacts (hnonneg : ∀ ref, 0 ≤ (r.appliedTo ref).minor) {c : Clearing P} (form : checkForm c = .ok ())
    (fresh : r.byId.get? c.id = none) {done left : List (ClearedItem P)} (items : c.items = done ++ left)
    {seen : List PostingRef} {sides : Balance P}
    (passed : done.foldlM (r.checkItem lookup c) ([], .zero) = .ok (seen, sides))
    (h : SqlClearings.afterFacts c .empty sides left = .ok client) : Progress B lookup r client := by
  cases left with
  | cons item left =>
    cases h
    exact .facts form fresh items passed
  | nil =>
    rw [List.append_nil] at items
    subst items
    simp only [SqlClearings.afterFacts] at h
    split at h
    · cases h
    · rename_i hbal
      cases h
      obtain ⟨applied, happlied⟩ := ClearingRegister.restage_checked hnonneg passed
      exact .insertClearing (ClearingRegister.clear_eq_ok.2
        ⟨fresh, (checkForm_eq_ok.1 form).1, seen, sides, applied, passed, by simpa using hbal, happlied, rfl⟩)

theorem afterItem {c : Clearing P} {r' : ClearingRegister P} (accepts : r.clear c lookup = .ok r')
    {done left : List (ClearedItem P)} (items : c.items = done ++ left) :
    Progress B lookup r (SqlClearings.afterItem c ⟨[B.clearingRow c], done.map (B.itemRow c.id)⟩ left) := by
  cases left with
  | cons item left => exact .insertItem accepts items
  | nil =>
    rw [List.append_nil] at items
    rw [← items]
    exact .committing accepts

/-- **One statement.** -/
theorem statement [Blake3 H] {t : Tables H P} {ct : ClearingTables P} (ht : t.SealedRows B)
    (hr : ClearingRegister.Consistent (t.postingAt B) r) (hm : ct.Mirrors r) {c : Clearing P} {next : Next P}
    {own : ClearingTables P} (h : Progress B (t.postingAt B) r (.clearing c next own))
    (hst : SqlClearings.statement B t ct c own next = .ok client) : Progress B (t.postingAt B) r client := by
  have hview : view ct .empty = ct := by simp [view, ClearingTables.empty]
  cases h with
  | taken form =>
    simp only [SqlClearings.statement, hview] at hst
    split at hst
    · cases hst
    · rename_i hfree
      have fresh := (hm.fresh_iff hr c.id).1 (Bool.eq_false_iff.2 hfree)
      exact .afterFacts hr.applied_nonneg form fresh (List.nil_append _).symm rfl hst
  | @facts _ sides item left done seen form fresh items passed =>
    obtain ⟨facts, hfacts, hst⟩ := bind_eq_ok.1 hst
    obtain ⟨_, hcheck, hst⟩ := bind_eq_ok.1 hst
    obtain ⟨sides', hsides, hst⟩ := bind_eq_ok.1 hst
    rw [hview] at hfacts
    obtain ⟨p, hp, hdirection, haccount, hcurrency, hlayer, hresidual⟩ := (hm.postingFacts_eq ht hr item.posting).2 facts hfacts
    obtain ⟨ha, hc, hl, hle⟩ := checkFacts_eq_ok.1 (mapError_eq_ok.1 hcheck)
    obtain ⟨-, hn, hpos⟩ := checkForm_eq_ok.1 form
    have hmem : item ∈ c.items := items ▸ List.mem_append_right done List.mem_cons_self
    have hseen : item.posting ∉ seen := by
      rw [ClearingRegister.checkItems_seen passed, List.append_nil, List.mem_reverse]
      rw [items, List.map_append, List.map_cons] at hn
      exact fun hin => (List.nodup_append.1 hn).2.2 _ hin _ List.mem_cons_self rfl
    have hitem : r.checkItem (t.postingAt B) c (seen, sides) item = .ok (item.posting :: seen, sides') := by
      refine ClearingRegister.checkItem_eq_ok.2 ⟨hseen, hpos item hmem, p, facts.residual, sides', hp, ?_, hresidual, hle, ?_, rfl⟩
      · rw [Posting.key, ← haccount, ← hcurrency, ← hlayer, ha, hc, hl]
        rfl
      · rw [← hdirection]
        exact mapError_eq_ok.1 hsides
    have hpassed : (done ++ [item]).foldlM (r.checkItem (t.postingAt B) c) ([], .zero) =
        .ok (item.posting :: seen, sides') := by
      rw [List.foldlM_append, bind_eq_ok]
      exact ⟨_, passed, by rw [List.foldlM_cons, hitem]; rfl⟩
    exact .afterFacts hr.applied_nonneg form fresh (by rw [items, List.append_assoc]; rfl) hpassed hst
  | insertClearing accepts =>
    simp only [SqlClearings.statement] at hst
    split at hst
    · cases hst
      exact .afterItem accepts (List.nil_append _).symm
    · cases hst
  | @insertItem _ r' item left done accepts items =>
    simp only [SqlClearings.statement] at hst
    split at hst
    · cases hst
      have hown : done.map (B.itemRow c.id) ++ [B.itemRow c.id item] = (done ++ [item]).map (B.itemRow c.id) := by simp
      simp only [hown]
      exact .afterItem accepts (by rw [items, List.append_assoc]; rfl)
    · cases hst

/-- What is inserted are the rows of the clearing. -/
theorem inserted [Blake3 H] {t : Tables H P} (ht : t.SealedRows B) {c : Clearing P} {r' : ClearingRegister P}
    (accepts : r.clear c (t.postingAt B) = .ok r') :
    B.clearingRow c = ClearingTables.rowOfClearing c none ∧ c.items.map (B.itemRow c.id) = ClearingTables.itemRowsOf c := by
  obtain ⟨-, hlen, seen, sides, applied, hfold, -, -, -⟩ := ClearingRegister.clear_eq_ok.1 accepts
  have hitems := ClearingRegister.checkItems_spec hfold
  constructor
  · obtain ⟨item, hitem⟩ := List.exists_mem_of_length_pos (Nat.lt_of_lt_of_le Nat.two_pos hlen)
    obtain ⟨-, p, hp, hkey, -⟩ := hitems.each item hitem
    have haccount : p.account = c.account := congrArg BalanceKey.account hkey
    have hhandle := (ht.postingAt_spec hp).2.1
    rw [haccount] at hhandle
    rw [Backend.clearingRow, hhandle]
    rfl
  · refine List.map_congr_left fun item hi => ?_
    obtain ⟨-, p, hp, -, -⟩ := hitems.each item hi
    rw [Backend.itemRow, (ht.postingAt_spec hp).1]

end Progress

/-! ## The invariant -/

/-- The register that accepts the calls that returned. -/
structure Replays (B : Backend) (s : St H P) (r : ClearingRegister P) : Prop where
  accepted : ClearingRegister.replay (s.tables.postingAt B) s.accepted = .ok r
  mirrors : s.clearings.Mirrors r
  progress : ∀ i, Progress B (s.tables.postingAt B) r (s.clients i)

variable [Blake3 H]

/-- A client in a call holds the lock. -/
structure Inv (B : Backend) (s : St H P) : Prop where
  rows : s.tables.SealedRows B
  holder : ∀ i, s.clients i ≠ .idle → s.lock = some i
  register : ∃ r, Replays B s r

namespace Inv

variable {B : Backend} {s u : St H P}

theorem consistent (h : Inv B s) {r : ClearingRegister P} (hr : Replays B s r) :
    ClearingRegister.Consistent (s.tables.postingAt B) r :=
  ClearingRegister.consistent_of_reachable (fun _ _ hp => (h.rows.postingAt_spec hp).2.2)
    (ClearingRegister.replay_reachable hr.accepted).1

theorem alone (h : Inv B s) {i j : Nat} (hi : s.clients i ≠ .idle) (hne : j ≠ i) : s.clients j = .idle := by
  by_contra hj
  exact hne (Option.some.inj ((h.holder j hj).symm.trans (h.holder i hi)))

/-- A client ends its call, or goes on in it. -/
theorem ends (h : Inv B s) {i : Nat} (hi : s.clients i ≠ .idle) : ∀ j, Function.update s.clients i .idle j = .idle := by
  intro j
  by_cases hj : j = i
  · rw [hj, Function.update_self]
  · rw [Function.update_of_ne hj]
    exact h.alone hi hj

/-- A client that is the only one in a call goes on in it. -/
theorem goesOn {r : ClearingRegister P} (h : Inv B s) (hr : Replays B s r) {i : Nat} {client : Client P}
    (halone : ∀ j, j ≠ i → s.clients j = .idle) (hp : Progress B (s.tables.postingAt B) r client) :
    Inv B { s with lock := some i, clients := Function.update s.clients i client } := by
  refine ⟨h.rows, fun j hj => ?_, r, hr.accepted, hr.mirrors, fun j => ?_⟩
  · have hj : Function.update s.clients i client j ≠ .idle := hj
    by_contra hne
    have hji : j ≠ i := fun e => hne (by rw [e])
    rw [Function.update_of_ne hji] at hj
    exact hj (halone j hji)
  · show Progress B _ r (Function.update s.clients i client j)
    by_cases hji : j = i
    · rw [hji, Function.update_self]
      exact hp
    · rw [Function.update_of_ne hji]
      exact hr.progress j

theorem release (h : Inv B s) {i : Nat} (hi : s.clients i ≠ .idle) : Inv B (s.release i) := by
  obtain ⟨r, hr⟩ := h.register
  refine ⟨h.rows, fun j hj => absurd (h.ends hi j) hj, r, hr.accepted, hr.mirrors, fun j => ?_⟩
  show Progress B _ r (Function.update s.clients i .idle j)
  rw [h.ends hi j]
  exact .idle

/-- **A commit** is a `clear` that the register accepts. -/
theorem commit (h : Inv B s) {i : Nat} {c : Clearing P} {own : ClearingTables P} (hi : s.clients i = .committing c own) :
    Inv B (s.commit i c own) := by
  obtain ⟨r, hr⟩ := h.register
  have hactive : s.clients i ≠ .idle := by simp [hi]
  have hp := hr.progress i
  rw [hi] at hp
  cases hp with
  | @committing _ r' accepts =>
    obtain ⟨hrow, hitems⟩ := Progress.inserted h.rows accepts
    refine ⟨h.rows, fun j hj => absurd (h.ends hactive j) hj, r', ?_, ?_, fun j => ?_⟩
    · exact ClearingRegister.replay_concat.2 ⟨r, hr.accepted, accepts⟩
    · show (view s.clearings _).Mirrors r'
      rw [hrow, hitems]
      exact hr.mirrors.clear (h.consistent hr) accepts
    · show Progress B _ r' (Function.update s.clients i .idle j)
      rw [h.ends hactive j]
      exact .idle

/-- **A reset** leaves what the clients found. -/
theorem reset (h : Inv B s) {id : ClearingId} {on : Date} {clearings : ClearingTables P}
    (hct : s.clearings.resetClearing B id on = .ok clearings) :
    Inv B { s with clearings := clearings, accepted := s.accepted ++ [.reset id on] } := by
  obtain ⟨r, hr⟩ := h.register
  have hcons := h.consistent hr
  obtain ⟨r', hok, hmirrors⟩ := hr.mirrors.reset hcons hct
  refine ⟨h.rows, h.holder, r', ClearingRegister.replay_concat.2 ⟨r, hr.accepted, hok⟩, hmirrors, fun i => ?_⟩
  have hcons' := hcons.reset hok
  have hle : ∀ ref, 0 ≤ (r'.appliedTo ref).minor ∧ (r'.appliedTo ref).minor ≤ (r.appliedTo ref).minor := fun ref => by
    refine ⟨hcons'.applied_nonneg ref, ?_⟩
    rw [hcons'.applied, hcons.applied, ClearingRegister.active_reset hok]
    exact appliedOver_filter_le (fun c hc => (hcons.mem_active hc).2.positive) _ ref
  have hids : r'.byId = r.byId := by
    obtain ⟨-, -, -, -, -, -, -, rfl⟩ := ClearingRegister.reset_eq_ok.1 hok
    rfl
  exact (hr.progress i).mono (fun _ _ hp => hp) hle hids

variable [DecidableEq H]

theorem call (ledger : LedgerId) (h : Inv B s) {k : Tables.Call H P} (hk : Allowed B s (.call k)) :
    Inv B { s with tables := s.tables.after B k } := by
  obtain ⟨hoffers, hsealed, hroom⟩ := hk
  obtain ⟨r, hr⟩ := h.register
  have hcons := h.consistent hr
  have hmore : ∀ ref p, s.tables.postingAt B ref = some p → (s.tables.after B k).postingAt B ref = some p :=
    fun _ _ hp => (s.tables.after_effect B k).postingAt_stays h.rows hsealed hp
  refine ⟨(Tables.sealedRows_inductive B ledger).step _ k _ h.rows ⟨⟨hoffers, rfl, hroom⟩, hsealed⟩, h.holder, r, ?_, hr.mirrors,
    fun i => ?_⟩
  · exact ClearingRegister.replay_mono (fun _ _ hp => (h.rows.postingAt_spec hp).2.2) hmore hr.accepted
  · exact (hr.progress i).mono hmore (fun ref => ⟨hcons.applied_nonneg ref, le_rfl⟩) rfl

/-- **One step.** -/
theorem step (ledger : LedgerId) (h : Inv B s) {l : Lbl H P} (hl : Allowed B s l) (st : SqlClearings.step B s l = some u) :
    Inv B u := by
  cases l with
  | begin i c =>
    simp only [SqlClearings.step] at st
    cases hi : s.clients i with
    | clearing => simp [hi] at st
    | committing => simp [hi] at st
    | idle =>
      cases hlock : s.lock with
      | some j => simp [hi, hlock] at st
      | none =>
        cases hform : checkForm c with
        | error e =>
          simp only [hi, hlock, hform, Option.some.injEq] at st
          exact st ▸ h
        | ok a =>
          simp only [hi, hlock, hform, Option.some.injEq] at st
          subst st
          obtain ⟨r, hr⟩ := h.register
          refine h.goesOn hr (fun j _ => ?_) (.taken hform)
          by_contra hj
          have hheld := h.holder j hj
          rw [hlock] at hheld
          cases hheld
  | statement i =>
    simp only [SqlClearings.step] at st
    cases hi : s.clients i with
    | idle => simp [hi] at st
    | committing c own =>
      simp only [hi, Option.some.injEq] at st
      subst st
      exact h.commit hi
    | clearing c next own =>
      have hactive : s.clients i ≠ .idle := by simp [hi]
      obtain ⟨r, hr⟩ := h.register
      have hp := hr.progress i
      rw [hi] at hp
      cases hst : statement B s.tables s.clearings c own next with
      | error e =>
        simp only [hi, hst, Option.some.injEq] at st
        subst st
        exact h.release hactive
      | ok client =>
        simp only [hi, hst, Option.some.injEq] at st
        subst st
        rw [St.setClient, h.holder i hactive]
        exact h.goesOn hr (fun j hj => h.alone hactive hj) (hp.statement h.rows (h.consistent hr) hr.mirrors hst)
  | fail i =>
    simp only [SqlClearings.step] at st
    cases hi : s.clients i with
    | idle =>
      simp only [hi, Option.some.injEq] at st
      exact st ▸ h
    | clearing c next own =>
      simp only [hi, Option.some.injEq] at st
      subst st
      exact h.release (by simp [hi])
    | committing c own =>
      simp only [hi, Option.some.injEq] at st
      subst st
      exact h.release (by simp [hi])
  | reset id on =>
    simp only [SqlClearings.step] at st
    split at st
    · cases st
    · cases hct : s.clearings.resetClearing B id on with
      | error e =>
        simp only [hct, Option.some.injEq] at st
        exact st ▸ h
      | ok clearings =>
        simp only [hct, Option.some.injEq] at st
        subst st
        exact h.reset hct
  | call k =>
    simp only [SqlClearings.step] at st
    split at st
    · cases st
    · cases st
      exact h.call ledger hl

end Inv

variable [DecidableEq H]

theorem inv_of_reachable {B : Backend} {ledger : LedgerId} {s : St H P} (h : (system B ledger).Reachable s) : Inv B s := by
  refine LTS.Inductive.reachable (T := system B ledger) ⟨fun s hs => ?_, fun s l u hs st => hs.step ledger st.2 st.1⟩ h
  obtain ⟨htables, hclearings, -, hidle, haccepted⟩ := hs
  refine ⟨(Tables.sealedRows_inductive B ledger).reachable htables, fun i hi => absurd (hidle i) hi, .new, ?_, ?_, fun i => ?_⟩
  · rw [haccepted]
    rfl
  · rw [hclearings]
    exact ⟨rfl, rfl⟩
  · rw [hidle i]
    exact .idle

/-! ## The refinement -/

/-- What the items of a clearing apply on one side. -/
def sideMinor (ct : ClearingTables P) (lookup : PostingRef → Option (Posting P)) (id : ClearingId) (d : Direction) : Int :=
  ((ct.items.filter fun i => i.clearing = id ∧ (lookup i.posting).any fun p => p.direction = d).map (·.applied.minor)).sum

/-- What the committed rows say, and the register that accepts the calls that returned. -/
structure Settled (B : Backend) (s : St H P) (r : ClearingRegister P) : Prop where
  accepted : ClearingRegister.replay (s.tables.postingAt B) s.accepted = .ok r
  mirrors : s.clearings.Mirrors r
  residuals : ∀ ref, (s.tables.postingFacts B s.clearings ref).map (·.residual) =
    (r.residualOf ref (s.tables.postingAt B)).mapError .clearing
  bounded : ∀ ref p, s.tables.postingAt B ref = some p →
    0 ≤ s.clearings.appliedMinor ref ∧ s.clearings.appliedMinor ref ≤ p.amount.minor
  balanced : ∀ row ∈ s.clearings.clearings,
    sideMinor s.clearings (s.tables.postingAt B) row.id .debit = sideMinor s.clearings (s.tables.postingAt B) row.id .credit
  scope : ∀ row ∈ s.clearings.clearings, ∀ item ∈ s.clearings.items, item.clearing = row.id →
    ∃ p, s.tables.postingAt B item.posting = some p ∧ p.account = row.account ∧ p.currency = row.currency ∧ p.layer = row.layer
  once : (ClearingRegister.resets s.accepted).Nodup

theorem filter_itemRows {cs : List (Clearing P)} (hn : (cs.map (·.id)).Nodup) {c : Clearing P} (hc : c ∈ cs) :
    (cs.flatMap ClearingTables.itemRowsOf).filter (fun i => i.clearing = c.id) = ClearingTables.itemRowsOf c := by
  have hown : ∀ d : Clearing P, ∀ i ∈ ClearingTables.itemRowsOf d, i.clearing = d.id := fun d i hi => by
    obtain ⟨x, -, rfl⟩ := List.mem_map.1 hi
    rfl
  induction cs with
  | nil => cases hc
  | cons d cs ih =>
    rw [List.map_cons, List.nodup_cons] at hn
    rw [List.flatMap_cons, List.filter_append]
    rcases List.mem_cons.1 hc with rfl | hc
    · have hothers : (cs.flatMap ClearingTables.itemRowsOf).filter (fun i => i.clearing = c.id) = [] := by
        refine List.filter_eq_nil_iff.2 fun i hi he => hn.1 ?_
        obtain ⟨d, hd, hid⟩ := List.mem_flatMap.1 hi
        rw [← of_decide_eq_true he, hown d i hid]
        exact List.mem_map_of_mem hd
      rw [hothers, List.append_nil, List.filter_eq_self]
      exact fun i hi => decide_eq_true (hown c i hi)
    · have hnone : (ClearingTables.itemRowsOf d).filter (fun i => i.clearing = c.id) = [] := by
        refine List.filter_eq_nil_iff.2 fun i hi he => hn.1 ?_
        rw [← hown d i hi, of_decide_eq_true he]
        exact List.mem_map_of_mem hc
      rw [hnone, List.nil_append, ih hn.2 hc]

theorem sideMinor_eq {ct : ClearingTables P} {lookup : PostingRef → Option (Posting P)} {r : ClearingRegister P}
    (hm : ct.Mirrors r) (hr : ClearingRegister.Consistent lookup r) {c : Clearing P}
    (hc : c ∈ ClearingRegister.cleared r.events) (d : Direction) : sideMinor ct lookup c.id d = sideOf lookup d c.items := by
  have hsplit : ct.items.filter (fun i => i.clearing = c.id ∧ (lookup i.posting).any fun p => p.direction = d) =
      (ct.items.filter fun i => i.clearing = c.id).filter fun i => (lookup i.posting).any fun p => p.direction = d := by
    rw [List.filter_filter]
    exact List.filter_congr fun i _ => by simp [Bool.and_comm]
  unfold sideMinor
  rw [hsplit, hm.items, filter_itemRows hr.ids hc]
  simp [sideOf, ClearingTables.itemRowsOf, List.filter_map, Function.comp_def]

/-- **Clearings refine the register.** In every committed state of either store, for any
interleaving of the statements: what is applied to a posting is at most its amount, every
clearing is balanced on one account, currency and layer, no clearing is reset twice, and the
calls that returned, in the order they committed, are those of a register that accepts
them all and has the same residuals. -/
theorem clearings_refine (B : Backend) (ledger : LedgerId) {s : St H P} (h : (system B ledger).Reachable s) :
    ∃ r, Settled B s r := by
  have hinv := inv_of_reachable h
  obtain ⟨r, hr⟩ := hinv.register
  have hcons := hinv.consistent hr
  have happlied : ∀ ref, s.clearings.appliedMinor ref = (r.appliedTo ref).minor := fun ref => by
    rw [hr.mirrors.appliedMinor_eq, hcons.applied]
  have hrows : ∀ row ∈ s.clearings.clearings, ∃ c ∈ ClearingRegister.cleared r.events,
      row = ClearingTables.rowOfClearing c (r.resetOn.get? c.id) := fun row hrow => by
    rw [hr.mirrors.clearings] at hrow
    obtain ⟨c, hc, he⟩ := List.mem_map.1 hrow
    exact ⟨c, hc, he.symm⟩
  refine ⟨r, hr.accepted, hr.mirrors, fun ref => (hr.mirrors.postingFacts_eq hinv.rows hcons ref).1, fun ref p hp => ?_,
    fun row hrow => ?_, fun row hrow item hitem hid => ?_, (ClearingRegister.nodup_resets hr.accepted).1⟩
  · rw [happlied]
    exact ⟨hcons.applied_nonneg ref, hcons.bounded ref p hp⟩
  · obtain ⟨c, hc, rfl⟩ := hrows row hrow
    show sideMinor _ _ c.id .debit = sideMinor _ _ c.id .credit
    rw [sideMinor_eq hr.mirrors hcons hc, sideMinor_eq hr.mirrors hcons hc]
    exact (hcons.proper c hc).sides
  · obtain ⟨c, hc, rfl⟩ := hrows row hrow
    have hmem : item ∈ ClearingTables.itemRowsOf c := by
      rw [← filter_itemRows hcons.ids hc, ← hr.mirrors.items]
      exact List.mem_filter.2 ⟨hitem, decide_eq_true hid⟩
    obtain ⟨x, hx, rfl⟩ := List.mem_map.1 hmem
    obtain ⟨p, hp, hkey⟩ := (hcons.proper c hc).scope x hx
    obtain ⟨ha, hcur, hl⟩ := BalanceKey.mk.inj hkey
    exact ⟨p, hp, ha, hcur, hl⟩

/-! ## A reset between two statements -/

/-- The sale of March and its refund, as rows. -/
def refundRows : Tables Preimage cents :=
  (Tables.marchCalls [saleOfMarch, Journal.refund]).foldl (Tables.after .postgres) (.empty books)

set_option maxRecDepth 10000 in
theorem reachable_refundRows : ((Tables.calls .postgres books).restrict Tables.SealedBatches).Reachable refundRows := by
  have hrefund : Journal.FromSeal (Journal.refund.withState .balanced) :=
    ⟨Journal.refund, (((Journal.new books).withPolicy .permissive).afterAll Journal.marchDefined :
      Journal Preimage cents).context, toOption_eq_some.1 (by decide)⟩
  have hsealed : ∀ draft ∈ [saleOfMarch, Journal.refund], ∀ e ∈ [draft.withState .balanced], Journal.FromSeal e := by
    intro draft hd e he
    rw [List.mem_singleton.1 he]
    rcases List.mem_pair.1 hd with rfl | rfl
    · exact Tables.fromSeal_march _ List.mem_cons_self
    · exact hrefund
  have hshort : ∀ draft ∈ [saleOfMarch, Journal.refund], ∀ e ∈ [draft.withState .balanced], e.postings.length < 2 ^ 64 := by
    decide
  refine ⟨_, Tables.marchCalls [saleOfMarch, Journal.refund], rfl, ?_⟩
  exact .cons ⟨Tables.step_after trivial (by decide), trivial⟩ <| .cons ⟨Tables.step_after trivial (by decide), trivial⟩ <|
    .cons ⟨Tables.step_after (hshort _ List.mem_cons_self) (by decide), hsealed _ List.mem_cons_self⟩ <|
    .cons ⟨Tables.step_after (hshort _ (List.mem_cons_of_mem _ List.mem_cons_self)) (by decide),
      hsealed _ (List.mem_cons_of_mem _ List.mem_cons_self)⟩ (.nil _)

def twoEuro : Amount cents := ⟨200, by decide⟩

/-- Half of the refund, against the sale. -/
def halfRefunded (id : ClearingId) : Clearing cents :=
  { Journal.refunded with id := id, items := [⟨⟨saleOfMarch.id, 0⟩, twoEuro⟩, ⟨⟨Journal.refund.id, 1⟩, twoEuro⟩] }

def firstHalf : Clearing cents := halfRefunded ⟨saleOfMarch.id.uuid⟩
def secondHalf : Clearing cents := halfRefunded ⟨Journal.refund.id.uuid⟩

/-- The second clearing has read its facts when the first is reset. -/
def resetBetween : List (Lbl Preimage cents) :=
  .begin 0 firstHalf :: List.replicate 7 (.statement 0) ++ .begin 1 secondHalf :: List.replicate 3 (.statement 1) ++
    .reset firstHalf.id april.start :: List.replicate 4 (.statement 1)

def idleAt (t : Tables Preimage cents) : St Preimage cents := ⟨t, .empty, none, fun _ => .idle, []⟩

/-- The state after it. -/
def halfReset : St Preimage cents := (LTS.exec (step .postgres) (idleAt refundRows) resetBetween).getD (idleAt refundRows)

set_option maxRecDepth 20000 in
theorem reachable_halfReset : (system .postgres books).Reachable halfReset := by
  have hcalls : ∀ l ∈ resetBetween, ∀ s, Allowed .postgres s l := by
    intro l hl s
    simp only [resetBetween, List.mem_append, List.mem_cons, List.mem_replicate] at hl
    cases l with
    | call k => simp at hl
    | _ => trivial
  have hrun : (LTS.exec (step .postgres) (idleAt refundRows) resetBetween).isSome := by decide
  exact ⟨_, resetBetween, ⟨reachable_refundRows, rfl, rfl, fun _ => rfl, rfl⟩,
    (LTS.run_of_exec (LTS.exec_getD hrun)).restrict hcalls⟩

set_option maxRecDepth 20000 in
/-- Not vacuous: both clearings and the reset are accepted, and half of the refund is open. -/
theorem half_refund_open : halfReset.accepted.length = 3 ∧
    (refundRows.postingFacts .postgres halfReset.clearings ⟨Journal.refund.id, 1⟩).toOption.map (·.residual.minor) = some 200 ∧
    ∃ r, Settled .postgres halfReset r :=
  ⟨by decide, by decide, clearings_refine .postgres books reachable_halfReset⟩

end DoubleEntry.L5.SqlClearings
