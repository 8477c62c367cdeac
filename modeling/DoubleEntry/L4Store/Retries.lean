import DoubleEntry.L3Ledger.ContentHash
import DoubleEntry.L3Ledger.Corrections
import DoubleEntry.L4Store.Memory
import DoubleEntry.L4Store.SqlReads

/-!
# Retries

An entry with the key and the content of one on file is a retry of it. The journal
looks its key up before anything else, so a retry gets the outcome on file
(`Mapped.recordBatch_retry`). The SQL stores look for a clash of identifiers and check
a reversal first. A row passed these checks when it was inserted, and what it was
checked against stays (`Checked`): a retry passes them again, unless its identifier is
another entry's, or it reverses under a new one (`retries_settled`).

**Assumptions.** `Binding`, of the hash: what has the content hash of an entry on file has its
dates and postings. Entries have fewer than `2 ^ 64` postings.

**Results.**
* `Mapped.recordBatch_retry`: the journal, with no condition.
* `Sound.storesDates_retry`, `Sound.checkReverses_retry`: what a retry is checked for.
* `Sound.appendAt_retry`, `retries_settled`: the SQL stores, exactly when `Retriable`.
* `reversal_retry_refused`: a retry that is refused.
-/
namespace DoubleEntry.L3.Journal

open DoubleEntry.Core DoubleEntry.L1 DoubleEntry.L2

variable {H : Type} [Blake3 H] [DecidableEq H] {P : Scale}

/-- **The key comes first.** -/
theorem Mapped.recordBatch_retry {j : Journal H P} (h : j.Mapped) {i : Nat} {x e : Entry H .balanced P}
    (hi : j.entries[i]? = some x) (hkey : e.idempotencyKey = x.idempotencyKey) (hhash : e.contentHash = x.contentHash) :
    j.recordBatch [e] = (.ok [⟨x.id, some i, e.contentHash, false⟩], j) := by
  have hfile : j.byKey.get? e.idempotencyKey = some (x.id, i, e.contentHash) :=
    (h.byKey _ _ _ _).2 ⟨x, hi, hkey.symm, rfl, hhash.symm⟩
  have hone : j.recordValidated e = .ok (⟨x.id, some i, e.contentHash, false⟩, j) := by
    unfold recordValidated replay
    simp [hfile, Except.map]
  unfold recordBatch
  simp [recordEach, hone, Except.map]

end DoubleEntry.L3.Journal

namespace DoubleEntry.L4

open DoubleEntry.Core DoubleEntry.L1 DoubleEntry.L2 DoubleEntry.L3

variable {H : Type} [Blake3 H] [DecidableEq H] {P : Scale}

namespace MemoryStore

/-- The entries a call submits. -/
def submitted : Call H P → List (Entry H .balanced P)
  | .append batch => batch
  | _ => []

/-- Every call is an operation of the journal. -/
theorem exists_operation (j : Journal H P) (k : Call H P) : ∃ o, after j k = j.operate o ∧ j.offered o = submitted k := by
  cases k with
  | registerAccount record =>
    rcases Journal.keep_cases (registerAccount j record) j with h | h
    · exact ⟨.accountsMut j.accounts, h, rfl⟩
    · obtain ⟨accounts, -, h⟩ := map_eq_ok.1 h
      exact ⟨.accountsMut accounts, h.symm, rfl⟩
  | append batch => exact ⟨.mutate (.recordBatch batch), rfl, rfl⟩
  | definePeriod period =>
    rcases Journal.keep_cases (definePeriod j period) j with h | h
    · exact ⟨.calendarMut j.calendar, h, rfl⟩
    · obtain ⟨calendar, -, h⟩ := map_eq_ok.1 h
      exact ⟨.calendarMut calendar, h.symm, rfl⟩
  | transitionPeriod id target => exact ⟨.mutate (.call (.transitionPeriod id target)), rfl, rfl⟩
  | sealPeriod id => exact ⟨.mutate (.call (.sealPeriod id)), rfl, rfl⟩
  | clear clearing => exact ⟨.mutate (.call (.clear clearing)), rfl, rfl⟩
  | resetClearing id on => exact ⟨.mutate (.call (.resetClearing id on)), rfl, rfl⟩

/-- A store around a journal that operations reach holds one. -/
theorem reachable_operations {ledger : LedgerId} {j j' : Journal H P} {ks : List (Call H P)}
    (hj : (Journal.operations ledger).Reachable j) (r : (calls ledger).Run j ks j') :
    (Journal.operations ledger).Reachable j' := by
  induction r with
  | nil => exact hj
  | @cons j j₁ _ k _ st _ ih =>
    obtain rfl : j₁ = after j k := st
    obtain ⟨o, ho, -⟩ := exists_operation j k
    exact ih (hj.step ho)

end MemoryStore

namespace Tables

/-! ## What the rows were checked for -/

/-- The rows without their positions. -/
def leaves (t : Tables H P) : List (Logged H P) := t.entries.map (·.toLogged)

/-- `x` is what a backend stores of `e`, and `e` passed the checks: its dates could be bound, and
what it reverses is among `rows`, is no reversal, and has the inverse of its postings. -/
structure CheckedAs (B : Backend) (rows : List (Logged H P)) (x : Logged H P) (e : Entry H .balanced P) : Prop where
  logged : x = ⟨B.stored e, e.contentHash⟩
  length : e.postings.length < 2 ^ 64
  dates : B.storesDates e = true
  reverses : ∀ original, e.reverses = some original → ∃ y ∈ rows, y.entry.id = original ∧ y.entry.reverses = none ∧
    e.postings = y.entry.postings.map (·.inverted)

/-- Identifiers and keys are unique, an entry is reversed at most once, and every row was checked. -/
structure Checked (B : Backend) (rows : List (Logged H P)) : Prop where
  ids : (rows.map (·.entry.id)).Nodup
  keys : (rows.map (·.entry.idempotencyKey)).Nodup
  once : ∀ x ∈ rows, ∀ y ∈ rows, ∀ original, x.entry.reverses = some original → y.entry.reverses = some original →
    x.entry.id = y.entry.id
  checked : ∀ x ∈ rows, ∃ e, CheckedAs B rows x e

omit [DecidableEq H] in
theorem checked_nil (B : Backend) : Checked B ([] : List (Logged H P)) where
  ids := .nil
  keys := .nil
  once _ hx := absurd hx List.not_mem_nil
  checked _ hx := absurd hx List.not_mem_nil

omit [DecidableEq H] in
theorem CheckedAs.mono {B : Backend} {rows rows' : List (Logged H P)} {x : Logged H P} {e : Entry H .balanced P}
    (h : CheckedAs B rows x e) (hsub : rows ⊆ rows') : CheckedAs B rows' x e where
  logged := h.logged
  length := h.length
  dates := h.dates
  reverses original ho := by
    obtain ⟨y, hy, hrest⟩ := h.reverses original ho
    exact ⟨y, hsub hy, hrest⟩

omit [Blake3 H] [DecidableEq H] in
/-- What an entry is checked for before its key is looked up. -/
theorem checkReverses_eq_ok {t : Tables H P} (hu : (t.entries.map (·.entry.id)).Nodup) {e : Entry H .balanced P} :
    t.checkReverses e = .ok () ↔ ∀ original, e.reverses = some original →
      (∃ r ∈ t.entries, r.entry.id = original ∧ r.entry.reverses = none ∧
        e.postings = r.entry.postings.map (·.inverted)) ∧
      ∀ y ∈ t.entries, y.entry.reverses = some original → y.entry.id = e.id := by
  unfold checkReverses
  cases ho : e.reverses with
  | none => simp
  | some original =>
    simp only [Option.some.injEq, forall_eq']
    unfold checkReversal
    cases hf : t.entries.find? (fun r => decide (r.entry.id = original)) with
    | none =>
      have hno : ∀ r ∈ t.entries, r.entry.id ≠ original := fun r hr => by simpa using List.find?_eq_none.1 hf r hr
      simp only [reduceCtorEq, false_iff, not_and]
      intro h
      obtain ⟨r, hr, hid, -⟩ := h
      exact absurd hid (hno r hr)
    | some target =>
      obtain ⟨hmem, hid⟩ := (find?_unique hu).1 hf
      have hthe : ∀ r ∈ t.entries, r.entry.id = original → r = target := fun r hr h =>
        List.inj_on_of_nodup_map hu hr hmem (h.trans hid.symm)
      have hexists : (∃ r ∈ t.entries, r.entry.id = original ∧ r.entry.reverses = none ∧
          e.postings = r.entry.postings.map (·.inverted)) ↔
          target.entry.reverses = none ∧ e.postings = target.entry.postings.map (·.inverted) := by
        constructor
        · intro h
          obtain ⟨r, hr, hrid, hrest⟩ := h
          obtain rfl := hthe r hr hrid
          exact hrest
        · exact fun h => ⟨target, hmem, hid, h⟩
      rw [hexists, ← Journal.isInversionOf_iff]
      cases hrev : target.entry.reverses with
      | some o => simp [hrev]
      | none =>
        simp only [hrev, Option.isSome_none, Bool.false_eq_true, if_false, true_and]
        by_cases hany : (t.entries.any fun r => decide (r.entry.reverses = some original ∧ r.entry.id ≠ e.id)) = true
        · rw [if_pos hany]
          obtain ⟨y, hy, hand⟩ := List.any_eq_true.1 hany
          have hand' := of_decide_eq_true hand
          simp only [reduceCtorEq, false_iff, not_and]
          exact fun _ h => hand'.2 (h y hy hand'.1)
        · have hno : ∀ y ∈ t.entries, y.entry.reverses = some original → y.entry.id = e.id := by
            intro y hy hyo
            by_contra hne
            exact hany (List.any_eq_true.2 ⟨y, hy, decide_eq_true ⟨hyo, hne⟩⟩)
          rw [if_neg hany]
          by_cases hinv : Journal.isInversionOf target.entry e = true
          · simpa [hinv] using hno
          · simp [hinv]

/-! ## The rows over a run -/

omit [DecidableEq H] in
theorem Checked.insert {B : Backend} {t t₁ : Tables H P} (h : Checked B t.leaves) {e : Entry H .balanced P}
    {placed : Option (Nat × H)} {xid : Nat} (hlen : e.postings.length < 2 ^ 64) (hkey : t.byKey e.idempotencyKey = none)
    (hrev : t.checkReverses e = .ok ()) (hdates : B.storesDates e = true)
    (hrow : t.insertRow ⟨⟨B.stored e, e.contentHash⟩, placed, xid⟩ = some t₁) : Checked B t₁.leaves := by
  obtain ⟨rfl, hid, -⟩ := insertRow_eq_some hrow
  have hleaves : Tables.leaves { t with entries := t.entries ++ [⟨⟨B.stored e, e.contentHash⟩, placed, xid⟩] } =
      t.leaves ++ [⟨B.stored e, e.contentHash⟩] := List.map_append
  have hu : (t.entries.map (·.entry.id)).Nodup := by
    have := h.ids
    rwa [leaves, List.map_map] at this
  have hchecks := (checkReverses_eq_ok hu).1 hrev
  -- no row reverses what the new one does
  have honce : ∀ x ∈ t.leaves, ∀ original, e.reverses = some original → x.entry.reverses ≠ some original := by
    intro x hx original ho hxo
    obtain ⟨y, hy, rfl⟩ := List.mem_map.1 hx
    exact hid y hy ((hchecks original ho).2 y hy hxo)
  rw [hleaves]
  constructor
  · refine nodup_map_concat h.ids fun x hx => ?_
    obtain ⟨y, hy, rfl⟩ := List.mem_map.1 hx
    exact hid y hy
  · refine nodup_map_concat h.keys fun x hx => ?_
    obtain ⟨y, hy, rfl⟩ := List.mem_map.1 hx
    exact byKey_eq_none.1 hkey y hy
  · intro x hx y hy original hxo hyo
    rcases List.mem_append.1 hx with hx | hx
    · rcases List.mem_append.1 hy with hy | hy
      · exact h.once x hx y hy original hxo hyo
      · rw [List.mem_singleton.1 hy] at hyo
        exact absurd hxo (honce x hx original hyo)
    · rw [List.mem_singleton.1 hx] at hxo ⊢
      rcases List.mem_append.1 hy with hy | hy
      · exact absurd hyo (honce y hy original hxo)
      · rw [List.mem_singleton.1 hy]
  · intro x hx
    rcases List.mem_append.1 hx with hx | hx
    · obtain ⟨e', he'⟩ := h.checked x hx
      exact ⟨e', he'.mono (List.subset_append_left _ _)⟩
    · refine ⟨e, List.mem_singleton.1 hx, hlen, hdates, fun original ho => ?_⟩
      obtain ⟨r, hr, hrest⟩ := (hchecks original ho).1
      exact ⟨r.toLogged, List.mem_append_left _ (List.mem_map_of_mem hr), hrest⟩

omit [DecidableEq H] in
theorem Lands.checked {B : Backend} {t t' : Tables H P} {batch : List (Entry H .balanced P)} (h : Lands B t batch t')
    (hlen : ∀ e ∈ batch, e.postings.length < 2 ^ 64) (ht : Checked B t.leaves) : Checked B t'.leaves := by
  induction h with
  | nil => exact ht
  | replay key rest ih => exact ih (fun e he => hlen e (List.mem_cons_of_mem _ he)) ht
  | insert key reverses dates row rest ih =>
    exact ih (fun e he => hlen e (List.mem_cons_of_mem _ he)) (ht.insert (hlen _ List.mem_cons_self) key reverses dates row)

/-- Every row was checked, and the positions are those of a log. -/
structure Sound (B : Backend) (t : Tables H P) : Prop where
  log : ∃ log, t.LogInv log
  checked : Checked B t.leaves
  room : t.entries.length < 2 ^ 63

theorem sound_inductive (B : Backend) (ledger : LedgerId) :
    (calls B ledger : LTS (Tables H P) (Call H P)).Inductive fun t => Sound B t where
  init t h := by
    obtain rfl : t = .empty ledger := h
    exact ⟨⟨[], logInv_empty ledger⟩, checked_nil B, Nat.two_pow_pos 63⟩
  step t k t' h st := by
    have hlog := (logInv_inductive B ledger).step t k t' h.log st
    obtain ⟨hoffers, rfl, hroom⟩ := st
    refine ⟨hlog, ?_, hroom⟩
    have heffect := t.after_effect B k
    generalize t.after B k = t' at heffect
    cases heffect with
    | keep entries subtrees =>
      have hleaves : t'.leaves = t.leaves := by rw [leaves, leaves, entries]
      rw [hleaves]
      exact h.checked
    | appended ok =>
      obtain ⟨t₁, accumulator, hlands, rfl⟩ := lands_of_append ok
      exact hlands.checked hoffers h.checked
    | deferred ok => exact (lands_of_appendDeferred ok).checked hoffers.2 h.checked
    | sequenced ok =>
      obtain ⟨log, hl⟩ := h.log
      have hleaves : t'.leaves = t.leaves := (sequence_spec hl ok).2.leaves
      rw [hleaves]
      exact h.checked

namespace Sound

variable {B : Backend} {t : Tables H P} {xid : Nat} {r : EntryRow H P} {e : Entry H .balanced P}

omit [DecidableEq H] in
theorem ids (h : Sound B t) : (t.entries.map (·.entry.id)).Nodup := by
  have := h.checked.ids
  rwa [leaves, List.map_map] at this

omit [DecidableEq H] in
theorem byKey_eq (h : Sound B t) (hr : r ∈ t.entries) (hkey : e.idempotencyKey = r.entry.idempotencyKey) :
    t.byKey e.idempotencyKey = some r := by
  have hu := h.checked.keys
  rw [leaves, List.map_map] at hu
  exact (find?_unique hu).2 ⟨hr, hkey.symm⟩

omit [DecidableEq H] in
/-- The accumulator of the tail is the one stored. -/
theorem tail_eq (h : Sound B t) : ∃ tail, t.tail = .ok tail ∧ t.storeAccumulator tail.accumulator = t := by
  obtain ⟨log, hl⟩ := h.log
  exact ⟨_, hl.tail_eq h.room, rfl⟩

end Sound

/-! ## Retries -/

omit [Blake3 H] [DecidableEq H] in
/-- A retry `e` of the row `r` that the stores take: its identifier is not on a row of
another key, and where it reverses an entry it is the row's. -/
structure Retriable (t : Tables H P) (r : EntryRow H P) (e : Entry H .balanced P) : Prop where
  id : ∀ y ∈ t.entries, y.entry.id = e.id → y.entry.idempotencyKey = e.idempotencyKey
  reversal : e.reverses.isSome → e.id = r.entry.id

section
variable {B : Backend} {t : Tables H P} {xid : Nat} {r : EntryRow H P} {e : Entry H .balanced P}

omit [DecidableEq H] in
/-- The entry a row is of has the content of its retries. -/
theorem Sound.content_retry (hb : Binding H) (h : Sound B t) (hr : r ∈ t.entries) (hlen : e.postings.length < 2 ^ 64)
    (hhash : e.contentHash = r.contentHash) :
    ∃ e₀, CheckedAs B t.leaves r.toLogged e₀ ∧ e.content = e₀.content := by
  obtain ⟨e₀, hc⟩ := h.checked.checked r.toLogged (List.mem_map_of_mem hr)
  have hstored : r.contentHash = e₀.contentHash := congrArg Logged.contentHash hc.logged
  exact ⟨e₀, hc, (Entry.digest_eq_iff hb hlen hc.length).1 (hhash.trans hstored)⟩

omit [DecidableEq H] in
/-- The dates of a retry were bound before. -/
theorem Sound.storesDates_retry (hb : Binding H) (h : Sound B t) (hr : r ∈ t.entries) (hlen : e.postings.length < 2 ^ 64)
    (hhash : e.contentHash = r.contentHash) : B.storesDates e = true := by
  obtain ⟨e₀, hc, hcontent⟩ := h.content_retry hb hr hlen hhash
  simp only [Entry.content, Content.mk.injEq, heq_eq_eq, true_and] at hcontent
  obtain ⟨-, hbooking, hvalue, -, -, -, -, -, -, horiginal⟩ := hcontent
  have hdates := hc.dates
  unfold Backend.storesDates at hdates ⊢
  rw [hbooking, hvalue, horiginal]
  exact hdates

omit [DecidableEq H] in
/-- A retry of a reversal passes its checks under the identifier on file only. -/
theorem Sound.checkReverses_retry (hb : Binding H) (h : Sound B t) (hr : r ∈ t.entries) (hlen : e.postings.length < 2 ^ 64)
    (hhash : e.contentHash = r.contentHash) :
    t.checkReverses e = .ok () ↔ (e.reverses.isSome → e.id = r.entry.id) := by
  have hmem : r.toLogged ∈ t.leaves := List.mem_map_of_mem hr
  obtain ⟨e₀, hc, hcontent⟩ := h.content_retry hb hr hlen hhash
  have hentry : r.entry = B.stored e₀ := congrArg Logged.entry hc.logged
  simp only [Entry.content, Content.mk.injEq, heq_eq_eq, true_and] at hcontent
  obtain ⟨-, -, -, -, hpostings, -, -, -, hreverses, -⟩ := hcontent
  have hrow : r.entry.reverses = e.reverses := by rw [hentry, hreverses]; rfl
  rw [checkReverses_eq_ok h.ids]
  constructor
  · intro hchecks hsome
    obtain ⟨original, ho⟩ := Option.isSome_iff_exists.1 hsome
    exact ((hchecks original ho).2 r hr (hrow.trans ho)).symm
  · intro hid original ho
    refine ⟨?_, fun y hy hyo => ?_⟩
    · obtain ⟨x, hx, hxid, hxrev, hinv⟩ := hc.reverses original (hreverses.symm.trans ho)
      obtain ⟨y, hy, rfl⟩ := List.mem_map.1 hx
      exact ⟨y, hy, hxid, hxrev, hpostings.trans hinv⟩
    · rw [hid (by rw [ho]; rfl)]
      exact h.checked.once y.toLogged (List.mem_map_of_mem hy) r.toLogged hmem original hyo (hrow.trans ho)

/-- `append_one` on a retry, wherever it would place it. -/
theorem Sound.appendAt_retry (hb : Binding H) (h : Sound B t) (hr : r ∈ t.entries) (hlen : e.postings.length < 2 ^ 64)
    (hkey : e.idempotencyKey = r.entry.idempotencyKey) (hhash : e.contentHash = r.contentHash) (xid : Nat)
    (placed : Option (Nat × H)) :
    t.appendAt B xid placed e = .ok (⟨r.entry.id, r.placed.map Prod.fst, e.contentHash, false⟩, t) ↔ t.Retriable r e := by
  rw [appendAt_eq_ok]
  constructor
  · intro hl
    exact ⟨hl.clash, (h.checkReverses_retry hb hr hlen hhash).1 hl.reverses⟩
  · intro hre
    exact ⟨hre.id, (h.checkReverses_retry hb hr hlen hhash).2 hre.reversal, h.storesDates_retry hb hr hlen hhash,
      .inl ⟨r, h.byKey_eq hr hkey, hhash.symm, rfl, rfl⟩⟩

theorem Sound.append_retry (hb : Binding H) (h : Sound B t) (hr : r ∈ t.entries) (hlen : e.postings.length < 2 ^ 64)
    (hkey : e.idempotencyKey = r.entry.idempotencyKey) (hhash : e.contentHash = r.contentHash) :
    t.append B xid [e] = .ok ([⟨r.entry.id, r.placed.map Prod.fst, e.contentHash, false⟩], t) ↔ t.Retriable r e := by
  constructor
  · intro happ
    obtain ⟨tail, -, happ⟩ := bind_eq_ok.1 happ
    obtain ⟨x, heach, -⟩ := bind_eq_ok.1 happ
    obtain ⟨⟨recorded, t₁, tail₁⟩, hone, -⟩ := bind_eq_ok.1 heach
    have hl := (appendOne_eq_ok.1 hone).1
    exact ⟨hl.clash, (h.checkReverses_retry hb hr hlen hhash).1 hl.reverses⟩
  · intro hre
    obtain ⟨tail, htail, hstore⟩ := h.tail_eq
    have hlands := appendAt_eq_ok.1
      ((h.appendAt_retry hb hr hlen hkey hhash xid (some (tail.place e.contentHash))).2 hre)
    have hone : t.appendOne B xid tail e =
        .ok (⟨r.entry.id, r.placed.map Prod.fst, e.contentHash, false⟩, t, tail) := appendOne_eq_ok.2 ⟨hlands, rfl⟩
    unfold append
    simp only [htail, appendEach, hone, bind, Except.bind, hstore]

theorem Sound.appendDeferred_retry (hb : Binding H) (h : Sound B t) (hr : r ∈ t.entries)
    (hlen : e.postings.length < 2 ^ 64) (hkey : e.idempotencyKey = r.entry.idempotencyKey)
    (hhash : e.contentHash = r.contentHash) :
    t.appendDeferred B xid [e] = .ok ([⟨r.entry.id, r.placed.map Prod.fst, e.contentHash, false⟩], t) ↔
      t.Retriable r e := by
  rw [← h.appendAt_retry hb hr hlen hkey hhash xid none]
  unfold appendDeferred
  cases t.appendAt B xid none e with
  | error err => simp [bind, Except.bind]
  | ok x => simp [bind, Except.bind, appendDeferred, Prod.ext_iff]

end

end Tables

/-- **A retry gets the outcome on file.** From the journal always. From a SQL store,
inline or deferred, exactly when its identifier is not another entry's and a reversal
comes under the identifier on file. -/
theorem retries_settled (hb : Binding H) (ledger : LedgerId) :
    (∀ (j₀ j : Journal H P) (ks : List (MemoryStore.Call H P)), (Journal.operations ledger).Reachable j₀ →
      (MemoryStore.calls ledger).Run j₀ ks j → ∀ (i : Nat) (x e : Entry H .balanced P), j.entries[i]? = some x →
      e.idempotencyKey = x.idempotencyKey → e.contentHash = x.contentHash →
      j.recordBatch [e] = (.ok [⟨x.id, some i, e.contentHash, false⟩], j)) ∧
    ∀ (B : Backend) (t : Tables H P), (Tables.calls B ledger).Reachable t → ∀ r ∈ t.entries,
      ∀ (xid : Nat) (e : Entry H .balanced P), e.postings.length < 2 ^ 64 →
      e.idempotencyKey = r.entry.idempotencyKey → e.contentHash = r.contentHash →
      (t.append B xid [e] = .ok ([⟨r.entry.id, r.placed.map Prod.fst, e.contentHash, false⟩], t) ↔ t.Retriable r e) ∧
      (t.appendDeferred B xid [e] = .ok ([⟨r.entry.id, r.placed.map Prod.fst, e.contentHash, false⟩], t) ↔
        t.Retriable r e) := by
  constructor
  · intro j₀ j ks hj₀ hrun i x e hi hkey hhash
    have hmapped : j.Mapped := Journal.mapped_of_reachable (MemoryStore.reachable_operations hj₀ hrun)
    exact hmapped.recordBatch_retry hi hkey hhash
  · intro B t ht r hr xid e hlen hkey hhash
    have hsound : t.Sound B := (Tables.sound_inductive B ledger).reachable ht
    exact ⟨hsound.append_retry hb hr hlen hkey hhash, hsound.appendDeferred_retry hb hr hlen hkey hhash⟩

namespace Tables

/-! ## The sale of March, sent again -/

/-- A sale of the amount of the sale of March. -/
def framedSale : Entry Framed .balanced cents :=
  { (Entry.blank cents).withState .balanced with postings := saleOfMarch.postings }

/-- Its accounts, and the sale. -/
def framedCalls : List (Call Framed cents) :=
  [.registerAccount ⟨cashId, cash⟩, .registerAccount ⟨salesId, sales⟩, .append 0 [framedSale]]

def framedSold : Tables Framed cents := framedCalls.foldl (after .sqlite) (.empty books)

theorem reachable_framedSold : (calls .sqlite books).Reachable framedSold := by
  have hshort : ∀ e ∈ [framedSale], e.postings.length < 2 ^ 64 := by decide
  refine ⟨_, framedCalls, rfl, ?_⟩
  exact .cons (step_after trivial (by decide)) <| .cons (step_after trivial (by decide)) <|
    .cons (step_after hshort (by decide)) (.nil _)

/-- Not vacuous: the sale comes again under another identifier. -/
theorem framed_sale_retried : framedSold.append .sqlite 1 [{ framedSale with id := saleOfApril.id }] =
    .ok ([⟨framedSale.id, some 0, framedSale.contentHash, false⟩], framedSold) := by
  obtain ⟨-, hsql⟩ := retries_settled binding_framed books
  have hrows : framedSold.entries = [⟨⟨framedSale, framedSale.contentHash⟩, some (0, leafHash framedSale.contentHash), 0⟩] := rfl
  have hmem : ⟨⟨framedSale, framedSale.contentHash⟩, some (0, leafHash framedSale.contentHash), 0⟩ ∈ framedSold.entries := by
    rw [hrows]
    exact List.mem_singleton_self _
  refine ((hsql .sqlite framedSold reachable_framedSold _ hmem 1 { framedSale with id := saleOfApril.id } (by decide) rfl rfl).1).2 ⟨?_, ?_⟩
  · intro y hy hid
    rw [hrows] at hy
    obtain rfl := List.mem_singleton.1 hy
    exact absurd hid (by decide)
  · intro hsome
    cases hsome

/-- The reversal of the sale of March, built again. -/
def reversalAgain : Entry Preimage .balanced cents :=
  { Journal.reversalOfMarch.withState .balanced with id := saleOfApril.id }

/-- The tables after the sale and its reversal. -/
def afterReversal (B : Backend) : Tables Preimage cents :=
  (marchCalls [saleOfMarch, Journal.reversalOfMarch]).foldl (after B) (.empty books)

set_option maxRecDepth 10000 in
theorem reachable_afterReversal (B : Backend) : (calls B books).Reachable (afterReversal B) := by
  have hshort : ∀ draft ∈ [saleOfMarch, Journal.reversalOfMarch], ∀ e ∈ [draft.withState .balanced],
      e.postings.length < 2 ^ 64 := by decide
  refine ⟨_, marchCalls [saleOfMarch, Journal.reversalOfMarch], rfl, ?_⟩
  cases B
  all_goals
    exact .cons (step_after trivial (by decide)) <| .cons (step_after trivial (by decide)) <|
      .cons (step_after (hshort _ List.mem_cons_self) (by decide)) <|
      .cons (step_after (hshort _ (List.mem_cons_of_mem _ List.mem_cons_self)) (by decide)) (.nil _)

set_option maxRecDepth 10000 in
/-- **A retried reversal is refused.** On either backend the reversal is on file, and
the same reversal under a new identifier is one too many. -/
theorem reversal_retry_refused :
    ((calls .sqlite books).Reachable (afterReversal .sqlite) ∧
      (∃ r ∈ (afterReversal .sqlite).entries, reversalAgain.idempotencyKey = r.entry.idempotencyKey ∧
        reversalAgain.contentHash = r.contentHash) ∧
      (afterReversal .sqlite).append .sqlite 1 [reversalAgain] = .error (.alreadyReversed saleOfMarch.id)) ∧
    (calls .postgres books).Reachable (afterReversal .postgres) ∧
      (∃ r ∈ (afterReversal .postgres).entries, reversalAgain.idempotencyKey = r.entry.idempotencyKey ∧
        reversalAgain.contentHash = r.contentHash) ∧
      (afterReversal .postgres).append .postgres 1 [reversalAgain] = .error (.alreadyReversed saleOfMarch.id) := by
  refine ⟨⟨reachable_afterReversal .sqlite, by decide, error?_eq_some.1 (by decide)⟩,
    reachable_afterReversal .postgres, by decide, error?_eq_some.1 (by decide)⟩

end Tables

end DoubleEntry.L4
