import DoubleEntry.Core.Cache
import DoubleEntry.L3Ledger.Checkpoints
import DoubleEntry.L3Ledger.Disclosure
import DoubleEntry.L4Store.Columns
import DoubleEntry.L4Store.Readers

/-!
# Stored checkpoints

`save_checkpoint` files whatever it is given, one row for each key, and nothing checks the
row when it is loaded. What clients save is a head they have read and the balance over the
prefix it commits to, read by another statement. By then entries may have been appended,
and by the time the checkpoint is saved, or loaded, more may have been: `LTS.cached` of the
calls of a store.

A head and a balance over a prefix stay what they are while the log grows (`CheckpointOf`),
and so what is loaded is still true: it is a head of the log and the balance of its prefix,
and adding the postings since gives the balance now (`checkpoints_cached`).

**Assumptions.** A client saves only what it has read, from whichever states. Entries in memory
are sealed; on the SQL stores they are any.

**Results.**
* `loadCheckpoint_saveCheckpoint`: a checkpoint is loaded as it was saved, while its size fits.
* `reads_checkpoint`: what is read off a store is a checkpoint of it.
* `checkpoints_cached`: what is loaded is true, and takes the balance to now.
-/
namespace DoubleEntry.L4

open DoubleEntry.Core DoubleEntry.L1 DoubleEntry.L2 DoubleEntry.L3

variable {H : Type} {P : Scale}

/-! ## The table -/

/-- A row of `checkpoints`, below its key. -/
structure CheckpointRow (P : Scale) where
  balance : Balance P
  treeSize : Int
  treeRoot : Bytes

/-- The upsert. mirrors src/storage/sqlite.rs:1777-1799, src/storage/postgres.rs:2004-2027 -/
def Backend.saveCheckpoint [Blake3 H] (B : Backend) (rows : OrdMap BalanceKey (CheckpointRow P)) (c : Checkpoint H P) :
    OrdMap BalanceKey (CheckpointRow P) :=
  rows.insert (B.storedKey c.key) ⟨c.balance, bigint c.treeHead.size, Blake3.asBytes c.treeHead.root⟩

/-- mirrors src/storage/sqlite.rs:1801-1826, src/storage/postgres.rs:2029-2056 -/
def Backend.loadCheckpoint [HashBytes H] (B : Backend) (rows : OrdMap BalanceKey (CheckpointRow P)) (key : BalanceKey) :
    Except (RowError H) (Option (Checkpoint H P)) :=
  match rows.get? (B.storedKey key) with
  | none => .ok none
  | some row => do
    let root ← hashFromBytes row.treeRoot
    .ok (some ⟨key, row.balance, ⟨row.treeSize.toNat, root⟩⟩)

/-- mirrors src/storage.rs:1221-1229 -/
def MemoryStore.saveCheckpoint (checkpoints : OrdMap BalanceKey (Checkpoint H P)) (c : Checkpoint H P) :
    OrdMap BalanceKey (Checkpoint H P) := checkpoints.insert c.key c

/-- mirrors src/storage.rs:1231-1239 -/
def MemoryStore.loadCheckpoint (checkpoints : OrdMap BalanceKey (Checkpoint H P)) (key : BalanceKey) :
    Option (Checkpoint H P) := checkpoints.get? key

/-- A checkpoint that is saved is the one that is loaded, while its size fits the column. -/
theorem loadCheckpoint_saveCheckpoint [HashBytes H] (B : Backend) (rows : OrdMap BalanceKey (CheckpointRow P))
    {c : Checkpoint H P} (hc : c.size < 2 ^ 63) : B.loadCheckpoint (B.saveCheckpoint rows c) c.key = .ok (some c) := by
  have hsize : bigint c.treeHead.size = c.size := Nat.min_eq_left (by show c.size ≤ 2 ^ 63 - 1; omega)
  unfold Backend.loadCheckpoint Backend.saveCheckpoint
  rw [OrdMap.get?_insert_self]
  simp only [hashFromBytes_asBytes, bind, Except.bind, hsize]
  rfl

/-! ## Clients -/

/-- What a client holds. -/
inductive Reading (H : Type) (P : Scale)
  | head (head : TreeHead H)
  | checkpoint (c : Checkpoint H P)

/-- A head of the log, or the balance over the prefix of a head that was read before. -/
def Tables.Reads [Blake3 H] (B : Backend) (t : Tables H P) (held : List (Reading H P)) : Reading H P → Prop
  | .head head => head = t.head ∨ ∃ size, t.headAt size = .ok head
  | .checkpoint c => .head c.treeHead ∈ held ∧ t.balance B c.key (some c.size) = .ok c.balance

/-- In memory a checkpoint is also taken in one call. -/
def MemoryStore.Reads [Blake3 H] (j : Journal H P) (held : List (Reading H P)) : Reading H P → Prop
  | .head head => head = j.head ∨ ∃ size, j.headAt size = .ok head
  | .checkpoint c => j.checkpoint c.key = .ok c ∨
      .head c.treeHead ∈ held ∧ j.balance c.key (some c.size) = .ok c.balance

/-- A checkpoint that is held is saved. -/
def saveReading {R : Type} (save : R → Checkpoint H P → R) (cache : R) : Reading H P → R
  | .head _ => cache
  | .checkpoint c => save cache c

/-! ## What a checkpoint says of a log -/

theorem postingsOf_split (entries : List (Entry H .balanced P)) (n : Nat) :
    postingsOf entries = postingsOf (entries.take n) ++ postingsOf (entries.drop n) := by
  rw [postingsOf, postingsOf, postingsOf, ← List.flatMap_append, List.take_append_drop]

/-- Postings added to the total of those before them give the total of all. -/
theorem addAll_of_sides {key : BalanceKey} {ps : List (Posting P)} (hn : ∀ p ∈ ps, 0 ≤ p.amount.minor) :
    ∀ {b now : Balance P}, (∀ d, now.side d = b.side d + gross d key ps) →
      b.addAll (ps.filter (·.key = key)) = .ok now := by
  induction ps with
  | nil =>
    intro b now h
    obtain rfl : now = b := Balance.ext_side fun d => by simpa using h d
    rfl
  | cons p ps ih =>
    intro b now h
    have hrest := fun q hq => hn q (List.mem_cons_of_mem p hq)
    by_cases hk : p.key = key
    · rw [List.filter_cons_of_pos (by simpa using hk)]
      have hfits : FitsI64 (b.side p.direction + p.amount.minor) := by
        have hside := h p.direction
        rw [Tables.gross_cons, if_pos ⟨hk, rfl⟩] at hside
        have hmin : i64Min ≤ b.side p.direction := by
          cases p.direction
          · exact b.debits.fits.1
          · exact b.credits.fits.1
        have hmax := now.side_le p.direction
        have hpos := hn p List.mem_cons_self
        have hgross : 0 ≤ gross p.direction key ps := gross_nonneg hrest
        exact ⟨by omega, by omega⟩
      obtain ⟨next, hnext⟩ := Balance.add_ok hfits
      refine bind_eq_ok.2 ⟨next, hnext, ih hrest fun d => ?_⟩
      rw [h d, Tables.gross_cons, Balance.side_add hnext d]
      simp only [hk, true_and]
      ring
    · rw [List.filter_cons_of_neg (by simpa using hk)]
      refine ih hrest fun d => ?_
      rw [h d, Tables.gross_cons, if_neg fun hx => hk hx.1, zero_add]

section
variable [Blake3 H] {log : List (Logged H P)} {key : BalanceKey} {b : Balance P} {head : TreeHead H}

/-- A head of the log, and the totals of a key over its prefix. -/
structure CheckpointOf (log : List (Logged H P)) (key : BalanceKey) (b : Balance P) (head : TreeHead H) : Prop where
  ofLog : OfLog log head
  totals : ∀ d, b.side d = gross d key (postingsOf (firstEntries (log.map (·.entry)) (some head.size)))

theorem CheckpointOf.append (h : CheckpointOf log key b head) (later : List (Logged H P)) :
    CheckpointOf (log ++ later) key b head where
  ofLog := h.ofLog.append later
  totals d := by
    have htake : (log.map (·.entry) ++ later.map (·.entry)).take head.size = (log.map (·.entry)).take head.size :=
      List.take_append_of_le_length (by rw [List.length_map]; exact h.ofLog.1)
    rw [h.totals d, List.map_append, firstEntries, firstEntries, Option.elim_some, Option.elim_some, htake]

theorem CheckpointOf.rest (h : CheckpointOf log key b head) (hn : ∀ p ∈ postingsOf (log.map (·.entry)), 0 < p.amount.minor)
    {now : Balance P} (hnow : ∀ d, now.side d = gross d key (postingsOf (log.map (·.entry)))) :
    b.addAll ((postingsOf ((log.map (·.entry)).drop head.size)).filter (·.key = key)) = .ok now := by
  have hsplit := postingsOf_split (log.map (·.entry)) head.size
  refine addAll_of_sides (fun p hp => (hn p ?_).le) fun d => ?_
  · rw [hsplit]
    exact List.mem_append_right _ hp
  · rw [hnow d, hsplit, gross_append, h.totals d]
    rfl

end

/-! ## On tables -/

namespace Tables

section
variable [Blake3 H] {B : Backend} {t : Tables H P} {log : List (Logged H P)}

theorem LogInv.balance_eq_ok (h : t.LogInv log) (hroom : t.entries.length < 2 ^ 63) {key : BalanceKey} {size : Option Nat}
    {b : Balance P} : t.balance B key size = .ok b ↔
      ∀ d, b.side d = gross d (B.storedKey key) (postingsOf (firstEntries (log.map (·.entry)) size)) :=
  sumRow_eq_ok.trans <| forall_congr' fun d => by rw [gross_perm (sequencedBelow_first h.logOf hroom size)]

theorem LogInv.posting_pos (h : t.LogInv log) (hroom : t.entries.length < 2 ^ 63) :
    ∀ p ∈ postingsOf (log.map (·.entry)), 0 < p.amount.minor := by
  intro p hp
  obtain ⟨r, hr, hpr⟩ := List.mem_flatMap.1 ((sequencedBelow_first h.logOf hroom none).mem_iff.2 hp)
  exact h.positive r (List.mem_filter.1 hr).1 p hpr

theorem LogInv.length_le (h : t.LogInv log) : log.length ≤ t.entries.length := by
  have hle := h.represents.length_le
  rwa [hashes, List.length_map] at hle

variable [DecidableEq H]

theorem LogInv.grows (h : t.LogInv log) (k : Call H P) : ∃ later, (t.after B k).LogInv (log ++ later) := by
  have heffect := t.after_effect B k
  generalize t.after B k = t' at heffect
  cases heffect with
  | keep entries subtrees => exact ⟨[], by rw [List.append_nil]; exact logInv_of_eq h entries subtrees⟩
  | appended ok =>
    obtain ⟨rows, -, -, hlog, -⟩ := append_spec h ok
    exact ⟨_, hlog⟩
  | deferred ok =>
    obtain ⟨hrows, hsub⟩ := appendDeferred_rowsOf h.toRowsOf ok
    exact ⟨[], by rw [List.append_nil]; exact ⟨hrows, by rw [hsub]; exact h.covers⟩⟩
  | sequenced ok => exact ⟨_, (sequence_spec h ok).1⟩

/-- A head that is read is one of the log. -/
theorem LogInv.ofLog_head (h : t.LogInv log) (hroom : t.entries.length < 2 ^ 63) {head : TreeHead H}
    (hread : head = t.head ∨ ∃ size, t.headAt size = .ok head) : OfLog log head := by
  have hagrees := h.agrees hroom
  rcases hread with rfl | ⟨size, hsize⟩
  · rw [hagrees.head]
    exact ⟨(List.length_map ..).le, by rw [List.take_length]⟩
  · by_cases hle : size ≤ (hashes log).length
    · rw [hagrees.headAt size hle] at hsize
      cases hsize
      exact ⟨by rwa [hashes, List.length_map] at hle, rfl⟩
    · rw [hagrees.headPast size (by omega)] at hsize
      cases hsize

theorem LogInv.headAt_eq (h : t.LogInv log) (hroom : t.entries.length < 2 ^ 63) {head : TreeHead H} (hof : OfLog log head) :
    t.headAt head.size = .ok head := by
  obtain ⟨size, root⟩ := head
  obtain ⟨hle, rfl⟩ : size ≤ log.length ∧ root = mth ((hashes log).take size) := hof
  exact (h.agrees hroom).headAt size (by rwa [hashes, List.length_map])

end

section
variable [HashBytes H] {B : Backend} {t : Tables H P} {log : List (Logged H P)}

/-- A reading of the log. -/
def ReadingOf (B : Backend) (log : List (Logged H P)) : Reading H P → Prop
  | .head head => OfLog log head
  | .checkpoint c => CheckpointOf log (B.storedKey c.key) c.balance c.treeHead

/-- Every row is a checkpoint of the log. -/
def RowsCheckpoint (log : List (Logged H P)) (rows : OrdMap BalanceKey (CheckpointRow P)) : Prop :=
  ∀ key row, rows.get? key = some row → ∃ head : TreeHead H, row.treeSize = head.size ∧
    hashFromBytes row.treeRoot = .ok head.root ∧ CheckpointOf log key row.balance head

theorem ReadingOf.append {v : Reading H P} (h : ReadingOf B log v) (later : List (Logged H P)) :
    ReadingOf B (log ++ later) v := by
  cases v with
  | head head => exact OfLog.append h later
  | checkpoint c => exact CheckpointOf.append h later

theorem RowsCheckpoint.append {rows : OrdMap BalanceKey (CheckpointRow P)} (h : RowsCheckpoint log rows)
    (later : List (Logged H P)) : RowsCheckpoint (log ++ later) rows := fun key row hrow => by
  obtain ⟨head, hsize, hroot, hof⟩ := h key row hrow
  exact ⟨head, hsize, hroot, hof.append later⟩

/-- The columns hold a checkpoint while its size fits. -/
theorem RowsCheckpoint.save {rows : OrdMap BalanceKey (CheckpointRow P)} (h : RowsCheckpoint log rows)
    {c : Checkpoint H P} (hc : ReadingOf B log (.checkpoint c)) (hroom : log.length < 2 ^ 63) :
    RowsCheckpoint log (B.saveCheckpoint rows c) := by
  intro key row hrow
  rw [Backend.saveCheckpoint, OrdMap.get?_insert] at hrow
  by_cases hk : B.storedKey c.key = key
  · rw [if_pos hk] at hrow
    cases hrow
    subst hk
    have hle : c.treeHead.size ≤ log.length := CheckpointOf.ofLog hc |>.1
    have hsize : bigint c.treeHead.size = c.treeHead.size := Nat.min_eq_left (by omega)
    exact ⟨c.treeHead, by rw [hsize], hashFromBytes_asBytes _, hc⟩
  · rw [if_neg hk] at hrow
    exact h key row hrow

variable [DecidableEq H] {ledger : LedgerId}

/-- **What is cached is of the log**, and so is what clients hold. -/
theorem cached_inductive (B : Backend) (ledger : LedgerId) :
    ((calls B ledger : LTS (Tables H P) (Call H P)).cached (Reads B) .empty (saveReading B.saveCheckpoint)).Inductive fun s =>
      ((∃ log, s.store.LogInv log) ∧ s.store.entries.length < 2 ^ 63) ∧
        (∀ v ∈ s.held, ReadingOf B s.store.log v) ∧ RowsCheckpoint s.store.log s.cache := by
  have hcalls : (calls B ledger : LTS (Tables H P) (Call H P)).Inductive fun t =>
      (∃ log, t.LogInv log) ∧ t.entries.length < 2 ^ 63 := by
    constructor
    · rintro _ rfl
      exact ⟨⟨[], logInv_empty ledger⟩, Nat.two_pow_pos 63⟩
    · exact fun t k t' ⟨hlog, _⟩ st => ⟨(logInv_inductive B ledger).step t k t' hlog st, st.2.2⟩
  refine LTS.cached_inductive (fun t : Tables H P => ReadingOf B t.log) (fun t => RowsCheckpoint t.log) hcalls ?_ ?_ ?_ ?_
  · rintro t held v ⟨⟨log, hlog⟩, hroom⟩ hheld hread
    rw [log_eq hlog.logOf] at hheld ⊢
    cases v with
    | head head => exact hlog.ofLog_head hroom hread
    | checkpoint c => exact ⟨hheld _ hread.1, (hlog.balance_eq_ok hroom).1 hread.2⟩
  · rintro t k t' ⟨⟨log, hlog⟩, hroom⟩ ⟨-, rfl, -⟩
    obtain ⟨later, hlater⟩ := hlog.grows k
    rw [log_eq hlog.logOf, log_eq hlater.logOf]
    exact ⟨fun v hv => hv.append later, fun rows hrows => hrows.append later⟩
  · intro t key row hrow
    cases hrow
  · rintro t rows v ⟨⟨log, hlog⟩, hroom⟩ hv hrows
    rw [log_eq hlog.logOf] at hv hrows ⊢
    cases v with
    | head head => exact hrows
    | checkpoint c => exact hrows.save hv (hlog.length_le.trans_lt hroom)

/-- What is loaded is read off the store as well. -/
theorem loaded {t : Tables H P} (h : t.LogInv log) (hroom : t.entries.length < 2 ^ 63)
    {rows : OrdMap BalanceKey (CheckpointRow P)} (hrows : RowsCheckpoint log rows) (key : BalanceKey) :
    ∃ found, B.loadCheckpoint rows key = .ok found ∧ ∀ c : Checkpoint H P, c ∈ found → c.key = key ∧
      t.headAt c.size = .ok c.treeHead ∧ t.balance B key (some c.size) = .ok c.balance ∧
      ∀ now, t.balance B key none = .ok now →
        c.balance.addAll ((postingsOf ((log.map (·.entry)).drop c.size)).filter (·.key = B.storedKey key)) = .ok now := by
  unfold Backend.loadCheckpoint
  cases hrow : rows.get? (B.storedKey key) with
  | none => exact ⟨none, rfl, fun c hc => by cases hc⟩
  | some row =>
    obtain ⟨head, hsize, hroot, hof⟩ := hrows _ row hrow
    have hhead : (⟨row.treeSize.toNat, head.root⟩ : TreeHead H) = head := by rw [hsize]; rfl
    refine ⟨some ⟨key, row.balance, head⟩, ?_, fun c hc => ?_⟩
    · simp only [hroot, bind, Except.bind, hhead]
    · cases hc
      exact ⟨rfl, h.headAt_eq hroom hof.ofLog, (h.balance_eq_ok hroom).2 hof.totals, fun now hnow =>
        hof.rest (h.posting_pos hroom) ((h.balance_eq_ok hroom).1 hnow)⟩

end

end Tables

/-! ## In memory -/

namespace MemoryStore

variable [Blake3 H] [DecidableEq H] {j j' : Journal H P}

omit [DecidableEq H] in
theorem leaves_grown (h : j.Kept) (h' : j'.Kept) (hgrown : j.entries <+: j'.entries) : j.log.leaves <+: j'.log.leaves := by
  rw [h.posted.logged, h'.posted.logged]
  exact hgrown.map _

theorem verifyCheckpoint_stays (h : j.Kept) (h' : j'.Kept) (hgrown : j.entries <+: j'.entries) {c : Checkpoint H P}
    (hc : j.verifyCheckpoint c = .ok ()) : j'.verifyCheckpoint c = .ok () := by
  obtain ⟨hle, hhead, hbalance⟩ := Journal.verifyCheckpoint_eq_ok.1 hc
  refine Journal.verifyCheckpoint_eq_ok.2 ⟨hle.trans hgrown.length_le, headAt_stays (leaves_grown h h' hgrown) hhead, ?_⟩
  rw [h.balance_eq] at hbalance
  rw [h'.balance_eq, ← hbalance]
  obtain ⟨more, hmore⟩ := hgrown
  rw [← hmore, List.take_append_of_le_length hle]

/-- A reading of the journal. -/
def ReadingOf (j : Journal H P) : Reading H P → Prop
  | .head head => j.headAt head.size = .ok head
  | .checkpoint c => j.verifyCheckpoint c = .ok ()

/-- Every checkpoint is under its key, and is accepted. -/
def Checkpointed (j : Journal H P) (checkpoints : OrdMap BalanceKey (Checkpoint H P)) : Prop :=
  ∀ key c, checkpoints.get? key = some c → c.key = key ∧ j.verifyCheckpoint c = .ok ()

theorem reads_checkpoint (h : j.Kept) {held : List (Reading H P)} (hheld : ∀ v ∈ held, ReadingOf j v) {c : Checkpoint H P}
    (hread : Reads j held (.checkpoint c)) : j.verifyCheckpoint c = .ok () := by
  rcases hread with hc | ⟨hhead, hbalance⟩
  · obtain ⟨b, hb, he⟩ := map_eq_ok.1 hc
    have hb : j.balances.getOrZero c.key = b := Except.ok.inj hb
    obtain ⟨key, balance, head⟩ := c
    obtain ⟨-, rfl, rfl⟩ := Checkpoint.mk.inj he
    have hsize : (⟨key, b, j.head⟩ : Checkpoint H P).size = j.entries.length := h.size_head
    refine Journal.verifyCheckpoint_eq_ok.2 ⟨hsize.le, headAt_head j.log, ?_⟩
    rw [hsize, h.balance_eq, List.take_length, h.foldOf_eq, hb]
  · have hhead : j.headAt c.size = .ok c.treeHead := hheld _ hhead
    refine Journal.verifyCheckpoint_eq_ok.2 ⟨?_, hhead, hbalance⟩
    by_contra hlt
    have hlen : j.log.leaves.length = j.entries.length := by rw [h.posted.logged, List.length_map]
    unfold Journal.headAt MerkleLog.headAt MerkleLog.rootAt at hhead
    rw [if_pos (by omega)] at hhead
    cases hhead

/-- **What is cached is accepted**, and so is what clients hold. -/
theorem cached_inductive (ledger : LedgerId) :
    ((Journal.sealedOperations ledger : LTS (Journal H P) (Journal.Operation H P)).cached Reads .empty
      (saveReading saveCheckpoint)).Inductive fun s =>
        s.store.Kept ∧ (∀ v ∈ s.held, ReadingOf s.store v) ∧ Checkpointed s.store s.cache := by
  have hoperations : (Journal.sealedOperations ledger : LTS (Journal H P) (Journal.Operation H P)).Inductive Journal.Kept := by
    constructor
    · rintro _ rfl
      exact Journal.kept_new ledger
    · rintro j o _ h ⟨rfl, hs⟩
      exact h.operate hs
  refine LTS.cached_inductive ReadingOf Checkpointed hoperations ?_ ?_ ?_ ?_
  · intro j held v h hheld hread
    cases v with
    | head head =>
      rcases hread with rfl | ⟨size, hsize⟩
      · exact headAt_head j.log
      · obtain rfl := size_of_headAt hsize
        exact hsize
    | checkpoint c => exact reads_checkpoint h hheld hread
  · intro j o j' h st
    have h' := hoperations.step j o j' h st
    have hgrown := Journal.run_extends h (LTS.Run.single st)
    refine ⟨fun v hv => ?_, fun cs hcs key c hc => ?_⟩
    · cases v with
      | head head => exact headAt_stays (leaves_grown h h' hgrown) hv
      | checkpoint c => exact verifyCheckpoint_stays h h' hgrown hv
    · obtain ⟨hkey, hok⟩ := hcs key c hc
      exact ⟨hkey, verifyCheckpoint_stays h h' hgrown hok⟩
  · intro j key c hc
    cases hc
  · intro j cs v h hv hcs
    cases v with
    | head head => exact hcs
    | checkpoint c =>
      intro key found hfound
      have hfound : (cs.insert c.key c).get? key = some found := hfound
      rw [OrdMap.get?_insert] at hfound
      by_cases hk : c.key = key
      · rw [if_pos hk] at hfound
        cases hfound
        exact ⟨hk, hv⟩
      · rw [if_neg hk] at hfound
        exact hcs key found hfound

end MemoryStore

/-! ## The result -/

variable [HashBytes H] [DecidableEq H]

/-- **Checkpoints are a cache.** On every store, whenever clients read heads and balances and
save checkpoints of them, what is loaded is a head of the log with the balance of its prefix,
and with the postings since it is the balance now. -/
theorem checkpoints_cached (ledger : LedgerId) :
    (∀ (B : Backend) (s : Cached (Tables H P) (Reading H P) (OrdMap BalanceKey (CheckpointRow P))),
      ((Tables.calls B ledger).cached (Tables.Reads B) .empty (saveReading B.saveCheckpoint)).Reachable s →
      ∀ key, ∃ found, B.loadCheckpoint s.cache key = .ok found ∧ ∀ c : Checkpoint H P, c ∈ found → c.key = key ∧
        s.store.headAt c.size = .ok c.treeHead ∧ s.store.balance B key (some c.size) = .ok c.balance ∧
        ∀ now, s.store.balance B key none = .ok now →
          c.balance.addAll ((postingsOf ((s.store.log.map (·.entry)).drop c.size)).filter (·.key = B.storedKey key)) = .ok now) ∧
    ∀ s : Cached (Journal H P) (Reading H P) (OrdMap BalanceKey (Checkpoint H P)),
      ((Journal.sealedOperations ledger).cached MemoryStore.Reads .empty (saveReading MemoryStore.saveCheckpoint)).Reachable s →
      ∀ key c, MemoryStore.loadCheckpoint s.cache key = some c → c.key = key ∧ s.store.verifyCheckpoint c = .ok () ∧
        c.balance.addAll ((postingsOf (s.store.entries.drop c.size)).filter (·.key = key)) = s.store.balance key none := by
  constructor
  · intro B s h key
    obtain ⟨⟨⟨log, hlog⟩, hroom⟩, -, hrows⟩ := (Tables.cached_inductive B ledger).reachable h
    rw [Tables.log_eq hlog.logOf] at hrows ⊢
    exact Tables.loaded hlog hroom hrows key
  · intro s h key c hc
    obtain ⟨hkept, -, hcached⟩ := (MemoryStore.cached_inductive ledger).reachable h
    obtain ⟨rfl, hok⟩ := hcached key c hc
    refine ⟨rfl, hok, ?_⟩
    obtain ⟨-, -, hbalance⟩ := Journal.verifyCheckpoint_eq_ok.1 hok
    have hall := hkept.foldOf_eq c.key
    rw [hkept.balance_eq, Journal.foldOf] at hbalance
    rw [Journal.foldOf, postingsOf_split s.store.entries c.size, List.filter_append, Balance.addAll_append, hbalance] at hall
    exact hall

/-! ## A checkpoint of March in April -/

def marchCheckpoint : Checkpoint Preimage cents :=
  ⟨SealedBalance.cashKey, ⟨tenEuro, .zero⟩, sequencedSale.head⟩

/-- The sale of April is sequenced after the checkpoint is saved. -/
def sequencedApril : Tables Preimage cents :=
  (sequencedSale.after .postgres (.appendDeferred 1 [saleOfApril.withState .balanced])).after .postgres (.sequence 2)

/-- The clients of a store of March. -/
def marchCache (t : Tables Preimage cents) : Cached (Tables Preimage cents) (Reading Preimage cents)
    (OrdMap BalanceKey (CheckpointRow cents)) :=
  ⟨t, [.checkpoint marchCheckpoint, .head sequencedSale.head], Backend.saveCheckpoint .postgres .empty marchCheckpoint⟩

set_option maxRecDepth 10000 in
theorem reachable_marchCache : ((Tables.calls .postgres books).cached (Tables.Reads .postgres) .empty
    (saveReading (Backend.saveCheckpoint .postgres))).Reachable (marchCache sequencedApril) := by
  have hoffers : Tables.Offers .postgres (.appendDeferred 1 [saleOfApril.withState .balanced] : Tables.Call Preimage cents) :=
    ⟨rfl, fun e he => by rw [List.mem_singleton.1 he]; decide⟩
  have hlater : (Tables.calls .postgres books).Run sequencedSale
      [.appendDeferred 1 [saleOfApril.withState .balanced], .sequence 2] sequencedApril :=
    .cons (Tables.step_after hoffers (by decide)) <| .cons (Tables.step_after rfl (by decide)) (.nil _)
  have hbalance : sequencedSale.balance .postgres marchCheckpoint.key (some marchCheckpoint.size) =
      .ok marchCheckpoint.balance := by decide
  have hreads : ((Tables.calls .postgres books).cached (Tables.Reads .postgres) .empty
      (saveReading (Backend.saveCheckpoint .postgres))).Run ⟨sequencedSale, [], .empty⟩
      [.read (.head sequencedSale.head), .read (.checkpoint marchCheckpoint), .save (.checkpoint marchCheckpoint)]
      (marchCache sequencedSale) :=
    .cons ⟨.inl rfl, rfl⟩ <| .cons ⟨⟨List.mem_cons_self, hbalance⟩, rfl⟩ <| .cons ⟨List.mem_cons_self, rfl⟩ (.nil _)
  exact ((reachable_sequencedSale.of_restrict.cached _ _ _).run hreads).run (hlater.cached _ _ _ _ _)

def cashCheckpoint : Checkpoint Preimage cents :=
  ⟨SealedBalance.cashKey, Journal.marchSold.balances.getOrZero SealedBalance.cashKey, Journal.marchSold.head⟩

/-- The clients of a journal of March. -/
def cashCache (j : Journal Preimage cents) : Cached (Journal Preimage cents) (Reading Preimage cents)
    (OrdMap BalanceKey (Checkpoint Preimage cents)) :=
  ⟨j, [.checkpoint cashCheckpoint], MemoryStore.saveCheckpoint .empty cashCheckpoint⟩

/-- The sale of April is recorded after the checkpoint is saved. -/
def aprilSold : Journal Preimage cents := Journal.marchSold.afterAll [.definePeriod april, .record saleOfApril]

theorem reachable_cashCache : ((Journal.sealedOperations books).cached MemoryStore.Reads .empty
    (saveReading MemoryStore.saveCheckpoint)).Reachable (cashCache aprilSold) := by
  have hreads : ((Journal.sealedOperations books).cached MemoryStore.Reads .empty
      (saveReading MemoryStore.saveCheckpoint)).Run ⟨Journal.marchSold, [], .empty⟩
      [.read (.checkpoint cashCheckpoint), .save (.checkpoint cashCheckpoint)] (cashCache Journal.marchSold) :=
    .cons ⟨.inl rfl, rfl⟩ <| .cons ⟨List.mem_cons_self, rfl⟩ (.nil _)
  exact ((Journal.reachable_marchSold.cached _ _ _).run hreads).run ((Journal.run_sealedCalls books _ _).cached _ _ _ _ _)

set_option maxRecDepth 10000 in
/-- Not vacuous: the checkpoint of the cash account in March is loaded after the sale of
April, on Postgres and in memory, and holds. -/
theorem march_checkpoint_loaded :
    (Backend.loadCheckpoint .postgres (marchCache sequencedApril).cache SealedBalance.cashKey = .ok (some marchCheckpoint) ∧
      marchCheckpoint.size = 1 ∧ sequencedApril.log.length = 2 ∧ sequencedApril.headAt 1 = .ok marchCheckpoint.treeHead) ∧
    MemoryStore.loadCheckpoint (cashCache aprilSold).cache SealedBalance.cashKey = some cashCheckpoint ∧
      cashCheckpoint.size = 1 ∧ aprilSold.entries.length = 2 ∧ aprilSold.verifyCheckpoint cashCheckpoint = .ok () := by
  obtain ⟨htables, hmemory⟩ := checkpoints_cached (H := Preimage) (P := cents) books
  have hload : Backend.loadCheckpoint .postgres (marchCache sequencedApril).cache SealedBalance.cashKey = .ok (some marchCheckpoint) :=
    loadCheckpoint_saveCheckpoint .postgres .empty (by decide)
  have hsize : marchCheckpoint.size = 1 := by decide
  constructor
  · obtain ⟨found, hfound, hall⟩ := htables .postgres _ reachable_marchCache SealedBalance.cashKey
    rw [hload] at hfound
    cases hfound
    obtain ⟨-, hhead, -, -⟩ := hall _ rfl
    rw [hsize] at hhead
    exact ⟨hload, hsize, by decide, hhead⟩
  · have hget : MemoryStore.loadCheckpoint (cashCache aprilSold).cache SealedBalance.cashKey = some cashCheckpoint := OrdMap.get?_insert_self
    exact ⟨hget, by decide, by decide, (hmemory _ reachable_cashCache SealedBalance.cashKey _ hget).2.1⟩

end DoubleEntry.L4
