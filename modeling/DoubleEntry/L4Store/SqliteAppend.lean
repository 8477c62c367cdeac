import DoubleEntry.L4Store.SqliteRows

/-!
# Appending to the tables of SQLite

Whatever `append` accepts is read back (`rows_round_trip`): by `get` and by any page,
after any further calls, the entry it was and the content hash it had, and no read
fails. Behind it, the tables hold exactly the columns of the rows of `Tables`, and an
append here is an append there (`append_refines`).

**Assumptions.** None on the entries: they are any balanced ones. A reversal names its original
and the date of it, which the schema asks for.

**Results.**
* `Mirrors.insert`, `Mirrors.checkReversal`: single statements.
* `append_refines`: a batch that is accepted here is accepted by `Tables`, with its receipts.
* `after_refines`: later calls keep the rows there are.
-/
namespace DoubleEntry.L4

open DoubleEntry.Core DoubleEntry.L1 DoubleEntry.L2 DoubleEntry.L3

section
variable {H : Type} {P : Scale}

/-! ## What an insert leaves -/

section
variable {db db' : SqliteTables H}

theorem insertDimensions_eq_some {cs : List DimensionColumns} (h : cs.foldlM SqliteTables.insertDimension db = some db') :
    db' = { db with dimensions := db.dimensions ++ cs } := by
  induction cs generalizing db with
  | nil =>
    cases h
    simp
  | cons c cs ih =>
    rw [List.foldlM_cons] at h
    obtain ⟨db₁, h₁, h⟩ := Option.bind_eq_some_iff.1 h
    unfold SqliteTables.insertDimension at h₁
    split at h₁
    · cases h₁
      rw [ih h]
      simp
    · cases h₁

theorem insertBoth_eq_some {id : EntryId} {x : Posting P × Nat} (h : db.insertBoth id x = some db') :
    db' = { db with postings := db.postings ++ [postingColumns id x.2 x.1], dimensions := db.dimensions ++ axisRows id x } ∧
      db.accounts.contains x.1.account = true ∧ 0 < x.1.amount.minor := by
  obtain ⟨db₁, h₁, h⟩ := Option.bind_eq_some_iff.1 h
  unfold SqliteTables.insertPosting at h₁
  split at h₁
  · rename_i hchecks
    cases h₁
    simp only [Bool.and_eq_true, decide_eq_true_eq] at hchecks
    obtain ⟨⟨⟨⟨⟨-, -⟩, haccount⟩, -⟩, -⟩, hpositive⟩ := hchecks
    obtain ⟨account, hmem, he⟩ := List.any_eq_true.1 haccount
    obtain rfl : account = x.1.account := AccountId.ext (of_decide_eq_true he)
    exact ⟨insertDimensions_eq_some h, OrdMap.mem_keys.1 hmem, hpositive⟩
  · cases h₁

theorem insertEach_eq_some {id : EntryId} {xs : List (Posting P × Nat)}
    (h : xs.foldlM (SqliteTables.insertBoth id) db = some db') :
    db' = { db with
      postings := db.postings ++ xs.map fun x => postingColumns id x.2 x.1
      dimensions := db.dimensions ++ xs.flatMap (axisRows id) } ∧
      ∀ x ∈ xs, db.accounts.contains x.1.account = true ∧ 0 < x.1.amount.minor := by
  induction xs generalizing db with
  | nil =>
    cases h
    exact ⟨by simp, fun _ hx => absurd hx List.not_mem_nil⟩
  | cons x xs ih =>
    rw [List.foldlM_cons] at h
    obtain ⟨db₁, h₁, h⟩ := Option.bind_eq_some_iff.1 h
    obtain ⟨rfl, hx⟩ := insertBoth_eq_some h₁
    obtain ⟨rfl, hxs⟩ := ih h
    refine ⟨by simp, fun y hy => ?_⟩
    rcases List.mem_cons.1 hy with rfl | hy
    · exact hx
    · exact hxs y hy

theorem insertEntry_eq_some {row : EntryColumns} (h : db.insertEntry row = some db') :
    db' = { db with entries := db.entries ++ [row] } ∧ ∀ c ∈ db.entries, c.entryId ≠ row.entryId ∧
      (row.logIndex = none ∨ c.logIndex ≠ row.logIndex) ∧ (row.reverses = none ∨ c.reverses ≠ row.reverses) := by
  unfold SqliteTables.insertEntry at h
  split at h
  · rename_i hall
    cases h
    exact ⟨rfl, fun c hc => of_decide_eq_true (List.all_eq_true.1 hall c hc)⟩
  · cases h

/-! ## The rows of `Tables` -/

/-- The tables hold the rows of `t`, and its accounts and accumulator. -/
structure Mirrors [HashBytes H] (db : SqliteTables H) (t : Tables H P) : Prop extends Holds db t.entries where
  accounts : db.accounts = t.accounts
  subtrees : db.subtrees = t.subtrees

variable [HashBytes H] {t t' : Tables H P} {e : Entry H .balanced P}

omit [HashBytes H] in
theorem stored_sqlite (e : Entry H .balanced P) : Backend.sqlite.stored e = e := by
  simp [Backend.stored, Backend.handle]

/-- A new entry's row, with the row here. -/
theorem Mirrors.insert [DecidableEq H] {db₁ db₂ : SqliteTables H} {placed : Option (Nat × H)} (xid : Nat) (h : Mirrors db t)
    (hchecks : SqliteTables.checksHold (entryColumns e e.contentHash placed) = true)
    (hentry : db.insertEntry (entryColumns e e.contentHash placed) = some db₁)
    (hpostings : e.postings.zipIdx.foldlM (SqliteTables.insertBoth e.id) db₁ = some db₂) :
    ∃ t', t.insertRow ⟨⟨e, e.contentHash⟩, placed, xid⟩ = some t' ∧
      t' = { t with entries := t.entries ++ [⟨⟨e, e.contentHash⟩, placed, xid⟩] } ∧ Mirrors db₂ t' := by
  obtain ⟨rfl, hnew⟩ := insertEntry_eq_some hentry
  obtain ⟨rfl, hregistered⟩ := insertEach_eq_some hpostings
  have hrows : ∀ r ∈ t.entries, r.entry.id ≠ e.id ∧ (placed = none ∨ r.placed.map Prod.fst ≠ placed.map Prod.fst) ∧
      (e.reverses = none ∨ r.entry.reverses ≠ e.reverses) := fun r hr => by
    obtain ⟨hid, hindex, hreverses⟩ := hnew _ (h.entries ▸ List.mem_map_of_mem hr)
    refine ⟨fun he => hid (congrArg uuidBytes he), hindex.imp_left Option.map_eq_none_iff.1, ?_⟩
    exact hreverses.imp Option.map_eq_none_iff.1 fun hne he => hne (congrArg (Option.map uuidBytes) he)
  have hposting : ∀ p ∈ e.postings, t.accounts.contains p.account = true ∧ 0 < p.amount.minor := fun p hp => by
    obtain ⟨i, hi⟩ := List.mem_iff_getElem?.1 hp
    have hx := hregistered (p, i) (List.mem_zipIdx_iff_getElem?.2 hi)
    rw [← h.accounts]
    exact hx
  have hholds : t.constraintsHold ⟨⟨e, e.contentHash⟩, placed, xid⟩ = true := by
    refine Bool.and_eq_true_iff.2 ⟨List.all_eq_true.2 fun r hr => decide_eq_true (hrows r hr), ?_⟩
    exact List.all_eq_true.2 fun p hp => decide_eq_true (hposting p hp)
  have hpaired : e.reverses.isSome = e.originalBookingDate.isSome := by
    have hall := of_decide_eq_true hchecks
    simpa [entryColumns] using hall.2.2
  refine ⟨_, if_pos hholds, rfl, ?_⟩
  refine { accounts := h.accounts, subtrees := h.subtrees, entries := ?_, postings := ?_, dimensions := ?_, ids := ?_,
           hashed := ?_, paired := ?_ }
  · simp [h.entries]
  · simp [h.postings, postingRows]
  · simp [h.dimensions, dimensionRows]
  · exact nodup_map_concat h.ids fun r hr => (hrows r hr).1
  · intro r hr
    rcases List.mem_append.1 hr with hr | hr
    · exact h.hashed r hr
    · rw [List.mem_singleton.1 hr]
  · intro r hr
    rcases List.mem_append.1 hr with hr | hr
    · exact h.paired r hr
    · rw [List.mem_singleton.1 hr]
      exact hpaired

theorem IdempotencyKey.bytes_inj {a b : IdempotencyKey} : a.bytes = b.bytes ↔ a = b := ⟨IdempotencyKey.ext, congrArg _⟩

theorem Mirrors.any_entries (h : Mirrors db t) {p : EntryColumns → Bool} {q : EntryRow H P → Bool}
    (hpq : ∀ r, p (entryColumns r.entry r.contentHash r.placed) = q r) : db.entries.any p = t.entries.any q := by
  rw [h.entries, List.any_map]
  exact List.any_congr rfl hpq

theorem Mirrors.find_entries (h : Mirrors db t) {p : EntryColumns → Bool} {q : EntryRow H P → Bool}
    (hpq : ∀ r, p (entryColumns r.entry r.contentHash r.placed) = q r) :
    db.entries.find? p = (t.entries.find? q).map fun r => entryColumns r.entry r.contentHash r.placed := by
  rw [h.entries, List.find?_map]
  exact congrArg _ (List.find?_congr fun r _ => hpq r)

theorem Mirrors.byKey (h : Mirrors db t) (key : IdempotencyKey) :
    (db.entries.find? fun c => c.idempotencyKey = key.bytes) =
      (t.byKey key).map fun r => entryColumns r.entry r.contentHash r.placed :=
  h.find_entries fun r => by simp [entryColumns, IdempotencyKey.bytes_inj]

theorem Mirrors.checkReversal (h : Mirrors db t) {original : EntryId} (hok : db.checkReversal e original = .ok ()) :
    t.checkReversal e original = .ok () := by
  have hfind := h.find_entries (p := fun c => c.entryId = uuidBytes original) (q := fun r => r.entry.id = original)
    fun r => by simp [entryColumns, uuidBytes_inj]
  have hany := h.any_entries (p := fun c => c.reverses = some (uuidBytes original) ∧ c.entryId ≠ uuidBytes e.id)
    (q := fun r => r.entry.reverses = some original ∧ r.entry.id ≠ e.id) fun r => by
      simp [entryColumns, uuidBytes_inj]
  unfold SqliteTables.checkReversal at hok
  unfold Tables.checkReversal
  rw [hfind, hany] at hok
  cases htarget : t.entries.find? fun r => r.entry.id = original with
  | none =>
    rw [htarget] at hok
    cases hok
  | some target =>
    have hmem := List.mem_of_find?_eq_some htarget
    obtain rfl : target.entry.id = original := by simpa using List.find?_some htarget
    obtain ⟨grouped, hload, hgrouped⟩ := h.load [uuidBytes target.entry.id]
    rw [htarget] at hok
    simp only [Option.map_some, entryColumns, Option.isSome_map, hload, hgrouped target hmem List.mem_cons_self,
      Except.mapError, bind, Except.bind] at hok ⊢
    split at hok
    · cases hok
    · rename_i hreverses
      rw [if_neg hreverses]
      split at hok
      · cases hok
      · rename_i hreversed
        rw [if_neg hreversed]
        split at hok
        · rename_i hinverts
          exact if_pos hinverts
        · cases hok

/-! ## Appending to both -/

theorem directionStr_debit {d : Direction} : directionStr d = "D" ↔ d = .debit := by cases d <;> decide

theorem net_eq_gross (key : BalanceKey) (ps : List (Posting P)) :
    ((ps.filter fun p => p.key = key).map fun p => if p.direction = .debit then p.amount.minor else -p.amount.minor).sum =
      gross .debit key ps - gross .credit key ps := by
  induction ps with
  | nil => rfl
  | cons p ps ih =>
    have hsplit := gross_append .debit key [p] ps
    have hsplit' := gross_append .credit key [p] ps
    rw [List.singleton_append] at hsplit hsplit'
    rw [hsplit, hsplit', List.filter_cons]
    by_cases hkey : p.key = key
    · cases hd : p.direction <;> simp [hkey, hd, gross, ih] <;> omega
    · simp [hkey, gross, ih]

theorem Mirrors.netMinor (h : Mirrors db t) (key : BalanceKey) : db.netMinor key = t.netMinor key := by
  let xs := t.entries.flatMap fun r => r.entry.postings.zipIdx.map fun x => (r.entry.id, x)
  have hcolumns : db.postings = xs.map fun x => postingColumns x.1 x.2.2 x.2.1 := by
    rw [h.postings, List.map_flatMap]
    simp [postingRows, Function.comp_def]
  have hpostings : xs.map (fun x => x.2.1) = t.entries.flatMap (·.entry.postings) := by
    rw [List.map_flatMap]
    refine List.flatMap_congr fun r _ => ?_
    rw [List.map_map]
    exact List.zipIdx_map_fst 0 _
  have hkey : ∀ p : Posting P, (p.account.index = key.account.index ∧ currencyCode p.currency = currencyCode key.currency ∧
      layerStr p.layer = layerStr key.layer) ↔ p.key = key := fun p => by
    obtain ⟨account, currency, layer⟩ := key
    rw [currencyCode_injective.eq_iff, layerStr_injective.eq_iff, Posting.key, BalanceKey.mk.injEq]
    exact and_congr_left' ⟨AccountId.ext, congrArg _⟩
  rw [Tables.netMinor, ← hpostings, ← net_eq_gross, SqliteTables.netMinor, hcolumns, List.filter_map, List.map_map,
    List.filter_map, List.map_map]
  simp only [postingColumns, Function.comp_def, directionStr_debit]
  exact congrArg _ (congrArg _ (List.filter_congr fun x _ => decide_eq_decide.2 (hkey x.2.1)))

theorem Mirrors.checkLimits (h : Mirrors db t) {ps : List (Posting P)} :
    ∀ {checked : List BalanceKey}, db.checkLimitsLoop checked ps = .ok () →
      t.checkLimitsLoop .sqlite checked ps = .ok () := by
  induction ps with
  | nil => exact fun _ => rfl
  | cons p ps ih =>
    intro checked hok
    unfold SqliteTables.checkLimitsLoop at hok
    rw [Tables.checkLimitsLoop_cons]
    have hhandle : Backend.sqlite.handle p.key.account = p.key.account := rfl
    simp only [hhandle, ← h.accounts, ← h.netMinor]
    by_cases hmem : p.key ∈ checked
    · rw [if_pos (List.contains_iff_mem.2 hmem)] at hok
      rw [if_pos hmem]
      exact ih hok
    · rw [if_neg fun hc => hmem (List.contains_iff_mem.1 hc)] at hok
      rw [if_neg hmem]
      generalize (db.accounts.get? p.key.account).elim BalanceLimit.unlimited (·.limit) = limit at hok ⊢
      -- the same net is compared with the same limit
      cases limit with
      | unlimited => exact ih hok
      | noCreditBalance | noDebitBalance =>
        simp only at hok ⊢
        split at hok
        · cases hok
        · rename_i hfits
          rw [if_neg hfits]
          split at hok
          · rename_i hside
            rw [if_pos hside]
            exact ih hok
          · cases hok

theorem Mirrors.indices (h : Mirrors db t) :
    db.entries.filterMap (·.logIndex) = (t.entries.filterMap (·.placed)).map Prod.fst := by
  rw [h.entries, List.filterMap_map, List.map_filterMap]
  rfl

variable [DecidableEq H]

omit [DecidableEq H] in
theorem Mirrors.tail (h : Mirrors db t) {tail : Tail H} (hok : db.tail = .ok tail) : t.tail = .ok tail := by
  have hlen : db.len = t.sequencedCount := by rw [SqliteTables.len, h.indices, List.length_map, Tables.sequencedCount]
  have hnext : db.nextIndex = t.nextIndex := by rw [SqliteTables.nextIndex, h.indices, Tables.nextIndex]
  unfold SqliteTables.tail at hok
  unfold Tables.tail
  rw [← h.subtrees, ← hlen, ← hnext]
  cases hacc : MerkleAccumulator.tryFromParts db.subtrees db.len with
  | error err =>
    rw [hacc] at hok
    cases hok
  | ok accumulator =>
    rw [hacc] at hok
    cases hok
    rfl

/-- What an entry that was accepted is answered with, and the row that holds it. -/
structure Answered (t : Tables H P) (e : Entry H .balanced P) (out : Recorded H) : Prop where
  contentHash : out.contentHash = e.contentHash
  row : ∃ r ∈ t.entries, r.entry.id = out.id ∧ r.contentHash = e.contentHash ∧ (out.isNew = true → r.entry = e)

/-- **An append here is an append there.** -/
theorem appendOne_refines (h : Mirrors db t) {tail tail' : Tail H} {out : Recorded H} (xid : Nat)
    (hok : db.appendOne tail e = .ok (out, db', tail')) :
    ∃ t', t.appendOne .sqlite xid tail e = .ok (out, t', tail') ∧ Mirrors db' t' ∧ t.entries <+: t'.entries ∧
      Answered t' e out := by
  have hclash := h.any_entries (p := fun c => c.entryId = uuidBytes e.id ∧ c.idempotencyKey ≠ e.idempotencyKey.bytes)
    (q := fun r => r.entry.id = e.id ∧ r.entry.idempotencyKey ≠ e.idempotencyKey) fun r => by
      simp [entryColumns, uuidBytes_inj, IdempotencyKey.bytes_inj]
  unfold SqliteTables.appendOne at hok
  rw [hclash] at hok
  split at hok
  · cases hok
  rename_i hno
  obtain ⟨_, hreverses, hok⟩ := bind_eq_ok.1 hok
  split at hok
  · cases hok
  rename_i hchecks
  have hclash' : ∀ r ∈ t.entries, r.entry.id = e.id → r.entry.idempotencyKey = e.idempotencyKey := by
    simpa using hno
  have hreverses : t.checkReverses e = .ok () := by
    unfold SqliteTables.checkReverses at hreverses
    unfold Tables.checkReverses
    cases hr : e.reverses with
    | none => rfl
    | some original =>
      rw [hr] at hreverses
      exact h.checkReversal hreverses
  rw [h.byKey] at hok
  cases hkey : t.byKey e.idempotencyKey with
  | some r =>
    have hmem : r ∈ t.entries := List.mem_of_find?_eq_some hkey
    rw [hkey] at hok
    simp only [Option.map_some, entryColumns, hashFromBytes_asBytes, uuidFromBytes_uuidBytes, Except.mapError, bind,
      Except.bind] at hok
    split at hok
    · cases hok
    · rename_i hhash
      cases hok
      refine ⟨t, ?_, h, List.prefix_refl _, rfl, r, hmem, rfl, not_not.1 hhash, fun hnew => ?_⟩
      · exact Tables.appendOne_eq_ok.2 ⟨⟨hclash', hreverses, Backend.storesDates_sqlite e, .inl ⟨r, hkey, not_not.1 hhash, rfl, rfl⟩⟩, rfl⟩
      · cases hnew
  | none =>
    rw [hkey] at hok
    simp only [Option.map_none] at hok
    split at hok
    · cases hok
    · rename_i db₂ hinsert
      obtain ⟨_, hlimits, hok⟩ := bind_eq_ok.1 hok
      cases hok
      obtain ⟨db₁, hentry, hpostings⟩ := Option.bind_eq_some_iff.1 hinsert
      obtain ⟨t', hrow, ht', hrep⟩ := h.insert xid (by simpa using hchecks) hentry hpostings
      refine ⟨t', ?_, hrep, ht' ▸ List.prefix_append _ _, rfl,
        ⟨⟨e, e.contentHash⟩, some (tail.place e.contentHash), xid⟩, ?_, rfl, rfl, fun _ => rfl⟩
      · refine Tables.appendOne_eq_ok.2 ⟨⟨hclash', hreverses, Backend.storesDates_sqlite e, .inr ⟨hkey, ?_, hrep.checkLimits hlimits, rfl⟩⟩, rfl⟩
        rw [stored_sqlite]
        exact hrow
      · rw [ht']
        exact List.mem_append_right _ List.mem_cons_self

omit [DecidableEq H] in
theorem Answered.mono {out : Recorded H} (h : Answered t e out) (hgrow : t.entries <+: t'.entries) : Answered t' e out := by
  obtain ⟨r, hr, hrow⟩ := h.row
  exact ⟨h.contentHash, r, hgrow.subset hr, hrow⟩

theorem appendEach_refines {batch : List (Entry H .balanced P)} (xid : Nat) :
    ∀ {db : SqliteTables H} {t : Tables H P} {tail tail' : Tail H} {out : List (Recorded H)}, Mirrors db t →
      db.appendEach tail batch = .ok (out, db', tail') →
      ∃ t', t.appendEach .sqlite xid tail batch = .ok (out, t', tail') ∧ Mirrors db' t' ∧ t.entries <+: t'.entries ∧
        List.Forall₂ (Answered t') batch out := by
  induction batch with
  | nil =>
    intro db t tail tail' out h hok
    cases hok
    exact ⟨t, rfl, h, List.prefix_refl _, .nil⟩
  | cons e es ih =>
    intro db t tail tail' out h hok
    obtain ⟨⟨recorded, db₁, tail₁⟩, h₁, hok⟩ := bind_eq_ok.1 hok
    obtain ⟨⟨out', db₂, tail₂⟩, h₂, hok⟩ := bind_eq_ok.1 hok
    cases hok
    obtain ⟨t₁, hone, hrep₁, hgrow₁, hanswered⟩ := appendOne_refines h xid h₁
    obtain ⟨t₂, heach, hrep₂, hgrow₂, hrest⟩ := ih hrep₁ h₂
    refine ⟨t₂, ?_, hrep₂, hgrow₁.trans hgrow₂, .cons (hanswered.mono hgrow₂) hrest⟩
    rw [Tables.appendEach, hone]
    simp only [bind, Except.bind, heach]

/-- **An accepted batch is accepted there**, and every entry of it is answered with its row. -/
theorem append_refines {batch : List (Entry H .balanced P)} {out : List (Recorded H)} (h : Mirrors db t) (xid : Nat)
    (hok : db.append batch = .ok (out, db')) :
    ∃ t', t.append .sqlite xid batch = .ok (out, t') ∧ Mirrors db' t' ∧ t.entries <+: t'.entries ∧
      List.Forall₂ (Answered t') batch out := by
  obtain ⟨tail, htail, hok⟩ := bind_eq_ok.1 hok
  obtain ⟨⟨out', db₁, tail'⟩, heach, hok⟩ := bind_eq_ok.1 hok
  cases hok
  obtain ⟨t₁, heach', hrep, hgrow, hanswered⟩ := appendEach_refines xid h heach
  refine ⟨t₁.storeAccumulator tail'.accumulator, ?_, ?_, hgrow, ?_⟩
  · rw [Tables.append, h.tail htail]
    simp only [bind, Except.bind, heach']
  · exact { hrep with subtrees := rfl }
  · exact hanswered.imp fun _ _ ha => ⟨ha.contentHash, ha.row⟩

omit [DecidableEq H] in
theorem registerAccount_refines {record : AccountRecord} (h : Mirrors db t)
    (hok : db.registerAccount record = .ok db') :
    ∃ t', t.registerAccount .sqlite record = .ok t' ∧ Mirrors db' t' ∧ t'.entries = t.entries := by
  have hwritten : Mirrors { db with accounts := db.accounts.insert record.id record.account }
      ({ t with accounts := t.accounts.insert record.id record.account } : Tables H P) :=
    { h with accounts := congrArg (OrdMap.insert · record.id record.account) h.accounts }
  unfold SqliteTables.registerAccount at hok
  unfold Tables.registerAccount
  split at hok
  · cases hok
  rename_i hwindow
  refine ⟨{ t with accounts := t.accounts.insert record.id record.account }, ?_, ?_, rfl⟩
  · rw [h.accounts] at hok
    rw [if_neg (by simp), if_neg (by exact hwindow)]
    simp only [show Backend.sqlite.handle record.id = record.id from rfl]
    cases hstored : t.accounts.get? record.id with
    | some stored =>
      simp only [hstored] at hok ⊢
      split at hok
      · rename_i hpath
        exact if_pos hpath
      · cases hok
    | none =>
      simp only [hstored] at hok ⊢
      split at hok
      · cases hok
      · rename_i hpath
        exact if_neg hpath
  · have hdb : db' = { db with accounts := db.accounts.insert record.id record.account } := by
      cases hstored : db.accounts.get? record.id with
      | some stored =>
        simp only [hstored] at hok
        split at hok
        · exact (Except.ok.inj hok).symm
        · cases hok
      | none =>
        simp only [hstored] at hok
        split at hok
        · cases hok
        · exact (Except.ok.inj hok).symm
    rw [hdb]
    exact hwritten

/-! ## Over a run -/

/-- The calls that write these tables, with their arguments. -/
inductive RowCall (H : Type) (P : Scale)
  | registerAccount (record : AccountRecord)
  | append (batch : List (Entry H .balanced P))

/-- The tables after a call; a transaction that fails leaves them as they were. -/
def SqliteTables.after (db : SqliteTables H) : RowCall H P → SqliteTables H
  | .registerAccount record => Journal.keep (db.registerAccount record) db
  | .append batch => Journal.keep ((db.append batch).map Prod.snd) db

/-- The calls on an empty database. -/
def rowCalls (H : Type) [HashBytes H] [DecidableEq H] (P : Scale) : LTS (SqliteTables H) (RowCall H P) where
  init db := db = ⟨.empty, [], [], [], []⟩
  step db k db' := db' = db.after k

omit [DecidableEq H] in
theorem mirrors_empty (ledger : LedgerId) : Mirrors (⟨.empty, [], [], [], []⟩ : SqliteTables H) (.empty ledger : Tables H P) where
  entries := rfl
  postings := rfl
  dimensions := rfl
  ids := List.nodup_nil
  hashed := fun _ hr => absurd hr List.not_mem_nil
  paired := fun _ hr => absurd hr List.not_mem_nil
  accounts := rfl
  subtrees := rfl

theorem after_refines (h : Mirrors db t) (k : RowCall H P) :
    ∃ t', Mirrors (db.after k) t' ∧ t.entries <+: t'.entries := by
  cases k with
  | registerAccount record =>
    rcases Journal.keep_cases (db.registerAccount record) db with he | hok
    · rw [show db.after (.registerAccount record : RowCall H P) = db from he]
      exact ⟨t, h, List.prefix_refl _⟩
    · obtain ⟨t', -, hrep, hentries⟩ := registerAccount_refines h hok
      exact ⟨t', hrep, hentries ▸ List.prefix_refl _⟩
  | append batch =>
    rcases Journal.keep_cases ((db.append batch).map Prod.snd) db with he | hok
    · rw [show db.after (.append batch) = db from he]
      exact ⟨t, h, List.prefix_refl _⟩
    · obtain ⟨⟨out, db'⟩, happend, he⟩ := map_eq_ok.1 hok
      obtain ⟨t', -, hrep, hgrow, -⟩ := append_refines h 0 happend
      rw [show db.after (.append batch) = db' from he.symm]
      exact ⟨t', hrep, hgrow⟩

theorem run_refines {ks : List (RowCall H P)} (hrun : (rowCalls H P).Run db ks db') :
    ∀ {t : Tables H P}, Mirrors db t → ∃ t', Mirrors db' t' ∧ t.entries <+: t'.entries := by
  induction hrun with
  | nil => exact fun h => ⟨_, h, List.prefix_refl _⟩
  | cons hstep _ ih =>
    intro t h
    obtain ⟨t₁, hrep₁, hgrow₁⟩ := after_refines h _
    cases hstep
    obtain ⟨t₂, hrep₂, hgrow₂⟩ := ih hrep₁
    exact ⟨t₂, hrep₂, hgrow₁.trans hgrow₂⟩

/-- The entry answered with `out` is what every read of these tables returns. -/
structure ReadBack (db : SqliteTables H) (e : Entry H .balanced P) (out : Recorded H) : Prop where
  get : ∃ stored, db.get out.id = .ok (some stored) ∧ stored.contentHash = e.contentHash ∧
    (out.isNew = true → stored.entry = e)
  page : ∀ cursor, ∃ p : Page H P, db.page cursor = .ok p ∧ ∀ stored ∈ p.records, stored.entry.id = out.id →
    stored.contentHash = e.contentHash ∧ (out.isNew = true → stored.entry = e)

theorem Answered.readBack {out : Recorded H} (h : Mirrors db t) (ha : Answered t e out) : ReadBack db e out := by
  obtain ⟨r, hr, hid, hhash, hnew⟩ := ha.row
  refine ⟨⟨r.record, hid ▸ h.get hr, hhash, hnew⟩, fun cursor => ?_⟩
  obtain ⟨p, hp, hrecords⟩ := h.page cursor
  refine ⟨p, hp, fun stored hstored he => ?_⟩
  rw [hrecords] at hstored
  obtain ⟨r', hr', rfl⟩ := List.mem_map.1 hstored
  have hsame : r'.entry.id = r.entry.id := he.trans hid.symm
  rw [List.inj_on_of_nodup_map h.ids (mem_pageRows hr') hr hsame]
  exact ⟨hhash, hnew⟩

/-- **Rows are read back as the entries they were.** After any calls, the entries of an
accepted batch and whatever calls follow: `get` and every page succeed and return the
entry that was appended, or for a replay the one on file, with the content hash of the
entry in the batch. -/
theorem rows_round_trip {db'' : SqliteTables H} (hreach : (rowCalls H P).Reachable db) {batch : List (Entry H .balanced P)}
    {out : List (Recorded H)} (hok : db.append batch = .ok (out, db')) {ks : List (RowCall H P)}
    (hrun : (rowCalls H P).Run db' ks db'') : List.Forall₂ (ReadBack db'') batch out := by
  obtain ⟨db₀, ks₀, rfl, hrun₀⟩ := hreach
  obtain ⟨t, hrep, -⟩ := run_refines hrun₀ (mirrors_empty books)
  obtain ⟨t', -, hrep', -, hanswered⟩ := append_refines hrep 0 hok
  obtain ⟨t'', hrep'', hgrow⟩ := run_refines hrun hrep'
  exact hanswered.imp fun _ _ ha => (ha.mono hgrow).readBack hrep''

end

/-! ## A sale -/

/-- Cash and sales are registered. -/
def twoRegistered : SqliteTables Preimage :=
  let db : SqliteTables Preimage := ⟨.empty, [], [], [], []⟩
  (db.after (P := cents) (.registerAccount ⟨cashId, cash⟩)).after (P := cents) (.registerAccount ⟨salesId, sales⟩)

/-- A sale of March with an axis on each posting, and a document that is only named. -/
def counterSale : Entry Preimage .balanced cents :=
  { saleOfMarch.withState .balanced with
    postings := saleOfMarch.postings.map fun p =>
      { p with dimensions := (Dimensions.none.set books.label march.id.label).toOption.getD .none }
    document := some ⟨march.id.label, none⟩ }

set_option maxRecDepth 20000 in
/-- Not vacuous: the sale is new, and it is on the first page. -/
theorem counterSale_reads : ∃ recorded db', twoRegistered.append [counterSale] = .ok ([recorded], db') ∧
    recorded.isNew = true ∧ ReadBack db' counterSale recorded ∧
    ∃ p : Page Preimage cents, db'.page .start = .ok p ∧ p.records.map (·.entry.id) = [counterSale.id] := by
  have hnew : (twoRegistered.append [counterSale]).toOption.map (fun x => x.1.map (·.isNew)) = some [true] := by decide
  have hpage : ((twoRegistered.append [counterSale]).toOption.bind fun x =>
      (x.2.page (P := cents) .start).toOption).map (fun p => p.records.map (·.entry.id)) = some [counterSale.id] := by
    decide
  obtain ⟨⟨out, db'⟩, hx, hnew⟩ := Option.map_eq_some_iff.1 hnew
  obtain ⟨recorded, rest, rfl, hhead, hrest⟩ := List.map_eq_cons_iff.1 hnew
  obtain rfl := List.map_eq_nil_iff.1 hrest
  have hok := toOption_eq_some.1 hx
  have hreach : (rowCalls Preimage cents).Reachable twoRegistered :=
    ⟨_, [.registerAccount ⟨cashId, cash⟩, .registerAccount ⟨salesId, sales⟩], rfl, .cons rfl (.cons rfl (.nil _))⟩
  rw [hx] at hpage
  obtain ⟨p, hp, hrecords⟩ := Option.map_eq_some_iff.1 hpage
  have hread := rows_round_trip hreach hok (.nil _)
  exact ⟨recorded, db', hok, hhead, (List.forall₂_cons.1 hread).1, p, toOption_eq_some.1 hp, hrecords⟩

end

end DoubleEntry.L4
