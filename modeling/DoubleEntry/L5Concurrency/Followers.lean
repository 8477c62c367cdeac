import DoubleEntry.L4Store.Paging
import DoubleEntry.L5Concurrency.ClientLog

/-!
# Readers that follow the log

`page` selects the rows after a cursor and then counts the log; `statement` sums what
is before the cursor and then selects the lines after it. Neither is a transaction,
and writers go on between the two statements of a call and between two calls. A
reader keeps the cursor of its last page, and where that page was the last one, goes
on after the last item of it.

* What a reader has of the log is a prefix of it, in every state of every run, and so
  are the lines it has of a statement, running balances included (`Following`).
* Pages make progress: as many of them as entries are missing bring the reader to
  where the log was (`log_readers_follow`, `statement_readers_follow`).

Rows of `postings` come with their entry and never change, so that the statement that
loads them is not a step of its own.

**Assumptions.** None on the writers: any clients of `Clients`, on either backend. A page of a
statement fails where a running balance is out of range, and the reader keeps what it has.
-/
namespace DoubleEntry.L5

open DoubleEntry.Core DoubleEntry.L1 DoubleEntry.L2 DoubleEntry.L3 DoubleEntry.L4

/-! ## Readers -/

section
variable (H : Type) (P : Scale)

/-- A client that pages through the log. -/
structure LogReader where
  cursor : Cursor
  read : List (StoredEntry H P)
  /-- The log when the rows of the current page were selected. -/
  fetched : Option (List (Logged H P))

/-- A client that pages through the statement of a key. -/
structure StatementReader where
  key : BalanceKey
  cursor : PostingCursor
  read : List (StatementLine P)
  /-- What the current page opens with. -/
  opened : Option (Balance P)

end

/-- The statements of `page`. -/
inductive PageStep
  | rows (limit : Nat)
  | count
  | fail

/-- The pages a statement finishes. -/
def PageStep.pages : PageStep → Nat
  | .count => 1
  | _ => 0

/-- The statements of `statement`. -/
inductive LineStep
  | opening (limit : Nat)
  | lines
  | fail

def LineStep.pages : LineStep → Nat
  | .lines => 1
  | _ => 0

variable {H : Type} {P : Scale}

/-- Where to go on after a page: at its cursor, or else after its last record. -/
def resumeLog (c : Cursor) (p : Page H P) : Cursor :=
  (p.next.or ((p.records.getLast?.bind (·.index)).map fun index => ⟨some index, c.limit⟩)).getD c

def resumeStatement (c : PostingCursor) (p : StatementPage P) : PostingCursor :=
  (p.next.or (p.lines.getLast?.map fun l => ⟨some (linePosition l), c.limit⟩)).getD c

namespace LogReader

def start : LogReader H P := ⟨.start, [], none⟩

/-- mirrors src/storage/sqlite.rs:1077-1115, src/storage/postgres.rs:1244-1284 -/
def step (t : Tables H P) (r : LogReader H P) : PageStep → Option (LogReader H P)
  | .rows limit =>
    if r.fetched.isNone then some { r with cursor := r.cursor.withLimit limit, fetched := some t.log } else none
  | .count => r.fetched.map fun log =>
    let p := page log t.sequencedCount r.cursor
    ⟨resumeLog r.cursor p, r.read ++ p.records, none⟩
  | .fail => some { r with fetched := none }

end LogReader

/-- The second half of `statement`: the lines behind the cursor, and where to go on. -/
def linesPage (B : Backend) (rows : List (PostingRow H P)) (opening : Balance P) (cursor : PostingCursor) :
    Except MoneyError (StatementPage P) := do
  let rest := rows.filter fun r => !Tables.shown B cursor r
  let lines ← Tables.statementLines opening (rest.take cursor.effectiveLimit)
  let next := if cursor.effectiveLimit < rest.length then
      lines.getLast?.map fun l => ⟨some ⟨l.index, l.posting.index⟩, cursor.limit⟩
    else none
  .ok ⟨lines, next⟩

/-- The two halves of `statement` on the same tables are the call. -/
theorem statement_eq_halves (B : Backend) (t : Tables H P) (key : BalanceKey) (cursor : PostingCursor) :
    t.statement B key cursor =
      ((Tables.opening B (t.postingRows (B.storedKey key)) (B.storedKey key) cursor).mapError .store).bind fun opening =>
        (linesPage B (t.postingRows (B.storedKey key)) opening cursor).mapError .money := by
  unfold Tables.statement linesPage
  simp only [bind]
  cases Tables.opening B (t.postingRows (B.storedKey key)) (B.storedKey key) cursor with
  | error e => rfl
  | ok opening =>
    simp only [Except.mapError, Except.bind]
    cases Tables.statementLines opening
      (((t.postingRows (B.storedKey key)).filter fun r => !Tables.shown B cursor r).take cursor.effectiveLimit) <;> rfl

namespace StatementReader

def start (key : BalanceKey) : StatementReader P := ⟨key, .start, [], none⟩

/-- A sum or a running balance out of range ends the call.
mirrors src/storage/sqlite.rs:1667-1775, src/storage/postgres.rs:1891-2003 -/
def step (B : Backend) (t : Tables H P) (r : StatementReader P) : LineStep → Option (StatementReader P)
  | .opening limit =>
    if r.opened.isNone then
      let cursor := r.cursor.withLimit limit
      let opening := Tables.opening B (t.postingRows (B.storedKey r.key)) (B.storedKey r.key) cursor
      some { r with cursor := cursor, opened := opening.toOption }
    else none
  | .lines => r.opened.map fun opening =>
    match linesPage B (t.postingRows (B.storedKey r.key)) opening r.cursor with
    | .error _ => { r with opened := none }
    | .ok p => ⟨r.key, resumeStatement r.cursor p, r.read ++ p.lines, none⟩
  | .fail => some { r with opened := none }

end StatementReader

/-! ## The system -/

section
variable (H : Type) (P : Scale)

/-- A database with its clients, and readers of it. -/
structure Followed where
  store : St H P
  readers : List (LogReader H P)
  statements : List (StatementReader P)

inductive Turn
  | store (l : Lbl H P)
  | page (i : Nat) (x : PageStep)
  | line (i : Nat) (x : LineStep)

end

namespace Followed

variable [Blake3 H] [DecidableEq H]

/-- A table holds fewer than `2 ^ 63` rows. -/
def step (B : Backend) (s : Followed H P) : Turn H P → Option (Followed H P)
  | .store l => (s.store.step B l).bind fun t => if t.tables.entries.length < 2 ^ 63 then some { s with store := t } else none
  | .page i x => s.readers[i]?.bind fun r =>
    (r.step s.store.tables x).map fun r' => { s with readers := s.readers.set i r' }
  | .line i x => s.statements[i]?.bind fun r =>
    (r.step B s.store.tables x).map fun r' => { s with statements := s.statements.set i r' }

/-- An empty database, and readers that have read nothing. -/
def initial (ledger : LedgerId) (clients readers : Nat) (keys : List BalanceKey) : Followed H P :=
  ⟨.initial ledger clients, List.replicate readers .start, keys.map .start⟩

/-- The runs of a backend with readers. -/
def system (B : Backend) : LTS (Followed H P) (Turn H P) :=
  .ofFn (fun s => ∃ ledger clients readers keys, s = initial ledger clients readers keys) (step B)

def log (s : Followed H P) : List (Logged H P) := s.store.tables.log

/-- The rows of a statement. -/
def rows (B : Backend) (s : Followed H P) (key : BalanceKey) : List (PostingRow H P) :=
  rowsOn (s.log.map (·.entry)) (B.storedKey key)

end Followed

/-! ## Few postings -/

namespace St

variable [Blake3 H] [DecidableEq H] {B : Backend} {s s' : St H P} {l : Lbl H P}

/-- Entries on the way to the log, and in the tables, have no more postings than a sealed entry. -/
structure Short (s : St H P) : Prop where
  held : ∀ e ∈ s.held, e.postings.length ≤ maxPostings
  writers : ∀ w ∈ s.writers, ∀ e ∈ w.2, e.postings.length ≤ maxPostings
  rows : ∀ r ∈ s.tables.entries, r.entry.postings.length ≤ maxPostings

omit [Blake3 H] [DecidableEq H] in
theorem short_initial (ledger : LedgerId) (clients : Nat) : (initial ledger clients : St H P).Short :=
  ⟨by simp [initial], by simp [initial], by simp [initial, Tables.empty]⟩

theorem Effect.short (h : Effect B s l s') (hl : s.tables.LogInv s.tables.log) (hs : s.Short) : s'.Short := by
  have stored : ∀ {batch : List (Entry H .balanced P)} {rows : List (EntryRow H P)}, (∀ e ∈ batch, e.postings.length ≤ maxPostings) →
      (∀ r ∈ rows, ∃ e ∈ batch, r.toLogged = ⟨B.stored e, e.contentHash⟩) →
      ∀ r ∈ s.tables.entries ++ rows, r.entry.postings.length ≤ maxPostings := by
    intro batch rows hbatch hrows r hr
    rcases List.mem_append.1 hr with hr | hr
    · exact hs.rows r hr
    · obtain ⟨e, he, hrow⟩ := hrows r hr
      rw [show r.entry = B.stored e from congrArg Logged.entry hrow]
      exact (List.length_map _).trans_le (hbatch e he)
  cases h with
  | @validated draft ctx e ok =>
    refine ⟨fun e' he' => ?_, hs.writers, hs.rows⟩
    rcases List.mem_append.1 he' with he' | he'
    · exact hs.held e' he'
    · rw [List.mem_singleton.1 he']
      exact (Entry.length_of_seal ok).2
  | dropped => exact ⟨fun e he => hs.held e (List.mem_filter.1 he).1, hs.writers, hs.rows⟩
  | @appended batch out t held ok =>
    obtain ⟨rows, subtrees, rfl, -, hnew⟩ := Tables.append_spec hl ok
    refine ⟨hs.held, hs.writers, stored (fun e he => hs.held e (held e he)) fun r hr => ?_⟩
    obtain ⟨-, e, he, hrow, -⟩ := hnew r hr
    exact ⟨e, he, hrow⟩
  | began held =>
    refine ⟨hs.held, fun w hw e he => ?_, hs.rows⟩
    rcases List.mem_append.1 hw with hw | hw
    · exact hs.writers w hw e he
    · rw [List.mem_singleton.1 hw] at he
      exact hs.held e (held e he)
  | @committed xid w t hw ok =>
    obtain ⟨rows, rfl, -, hnew⟩ := Tables.commitBatch_spec hl ok
    refine ⟨hs.held, fun w hw => hs.writers w (List.mem_filter.1 hw).1, stored (hs.writers w hw) fun r hr => ?_⟩
    obtain ⟨-, e, he, hrow, -⟩ := hnew r hr
    exact ⟨e, he, hrow⟩
  | ended => exact ⟨hs.held, fun w hw => hs.writers w (List.mem_filter.1 hw).1, hs.rows⟩
  | sequenced ok =>
    refine ⟨hs.held, hs.writers, fun r hr => ?_⟩
    have hm : r.toLogged ∈ s.tables.entries.map (·.toLogged) :=
      (Tables.sequence_spec hl ok).2.leaves ▸ List.mem_map_of_mem hr
    obtain ⟨y, hy, hyr⟩ := List.mem_map.1 hm
    rw [← hyr]
    exact hs.rows y hy
  | stored hc ok =>
    obtain rfl := Tables.insertSeal_eq_some ok
    exact ⟨hs.held, hs.writers, hs.rows⟩
  | _ => exact ⟨hs.held, hs.writers, hs.rows⟩

end St

/-! ## Rows behind a cursor -/

/-- The rows of more entries go on where those of the first ones end. -/
theorem rowsOn_append (xs ys : List (Entry H .balanced P)) (key : BalanceKey) :
    ∃ more, rowsOn (xs ++ ys) key = rowsOn xs key ++ more := by
  unfold rowsOn
  rw [List.zipIdx_append, List.flatMap_append]
  exact ⟨_, rfl⟩

theorem storedEntries_append (xs ys : List (Logged H P)) : storedEntries xs <+: storedEntries (xs ++ ys) := by
  unfold storedEntries
  rw [List.zipIdx_append, List.map_append]
  exact List.prefix_append _ _

theorem storedEntries_grown {xs ys : List (Logged H P)} (h : xs <+: ys) : storedEntries xs <+: storedEntries ys := by
  obtain ⟨more, rfl⟩ := h
  exact storedEntries_append xs more

/-- Behind a cursor after the last of the first rows are the others, on either backend. -/
theorem shown_split {B : Backend} {front rest : List (PostingRow H P)}
    (h : (front ++ rest).Pairwise fun a b => a.position < b.position)
    (hroom : ∀ r ∈ front ++ rest, r.index < 2 ^ 63 - 1 ∧ r.postingIndex ≤ 32767) {cursor : PostingCursor}
    (hafter : cursor.after = front.getLast?.map PostingRow.position) :
    (front ++ rest).filter (Tables.shown B cursor) = front ∧
      ((front ++ rest).filter fun r => !Tables.shown B cursor r) = rest := by
  have hback : ((front ++ rest).filter fun r => !Tables.shown B cursor r) = rest := by
    cases hx : front.getLast? with
    | none =>
      rw [hx] at hafter
      rw [List.getLast?_eq_none_iff.1 hx, List.nil_append]
      exact List.filter_eq_self.2 fun r _ => by simp [Tables.shown, hafter]
    | some x =>
      have hlast : leftAfter PostingRow.position (front ++ rest) (some x.position) = rest := leftAfter_last h hx
      refine Eq.trans (List.filter_congr fun r hr => ?_) hlast
      obtain ⟨hindex, hposting⟩ := hroom x (List.mem_append_left _ (List.mem_of_getLast? hx))
      have hposition : x.position < r.position ↔ x.index < r.index ∨ x.index = r.index ∧ x.postingIndex < r.postingIndex :=
        PostingPosition.lt_iff
      have hbound : bigint x.position.index = x.index := min_eq_left hindex.le
      have hstored : B.postingIndex x.position.posting = x.postingIndex := by
        cases B with
        | sqlite => rfl
        | postgres => exact min_eq_left hposting
      rw [hx] at hafter
      rw [Bool.eq_iff_iff, Bool.not_eq_true', decide_eq_true_eq, hposition]
      simp only [Tables.shown, hafter, Option.map_some, Option.any_some, hbound, hstored, decide_eq_false_iff_not]
      omega
  refine ⟨?_, hback⟩
  have hdown := Tables.shown_before h B cursor
  have hsplit : (front ++ rest).filter (Tables.shown B cursor) ++ ((front ++ rest).filter fun r => !Tables.shown B cursor r) =
      front ++ rest := by
    rw [← takeWhile_eq_filter hdown, ← dropWhile_eq_filter hdown, List.takeWhile_append_dropWhile]
  rw [hback] at hsplit
  exact List.append_cancel_right hsplit

/-! ## Reading the log -/

theorem length_storedEntries (log : List (Logged H P)) : (storedEntries log).length = log.length := by simp [storedEntries]

namespace LogReader

/-- What was read are the first entries of the log, and the reader goes on after them. -/
structure Follows (log : List (Logged H P)) (r : LogReader H P) : Prop where
  read : r.read <+: storedEntries log
  cursor : r.cursor.first = r.read.length
  fetched : ∀ l, r.fetched = some l → l <+: log ∧ r.read <+: storedEntries l

theorem follows_start (log : List (Logged H P)) : (start : LogReader H P).Follows log := ⟨List.nil_prefix, rfl, by simp [start]⟩

variable {log log' : List (Logged H P)} {t : Tables H P} {r r' : LogReader H P} {x : PageStep}

theorem Follows.grown (h : r.Follows log) (hg : log <+: log') : r.Follows log' where
  read := h.read.trans (storedEntries_grown hg)
  cursor := h.cursor
  fetched l hl := ⟨(h.fetched l hl).1.trans hg, (h.fetched l hl).2⟩

/-- A page adds what is next, and at least one entry if there is one. -/
theorem Follows.page (h : r.Follows log) {l : List (Logged H P)} (hl : r.fetched = some l) (total : Nat) :
    r.read ++ (page l total r.cursor).records <+: storedEntries l ∧
    (resumeLog r.cursor (L4.page l total r.cursor)).first = (r.read ++ (L4.page l total r.cursor).records).length ∧
    min l.length (r.read.length + 1) ≤ (r.read ++ (L4.page l total r.cursor).records).length := by
  obtain ⟨-, hread⟩ := h.fetched l hl
  obtain ⟨rest, hrest⟩ := hread
  have hlimit : 0 < r.cursor.effectiveLimit := by
    unfold Cursor.effectiveLimit
    omega
  have hlength : l.length = r.read.length + rest.length := by
    rw [← length_storedEntries, ← hrest, List.length_append]
  have hrecords : (L4.page l total r.cursor).records = rest.take r.cursor.effectiveLimit := by
    show ((storedEntries l).drop r.cursor.first).take r.cursor.effectiveLimit = _
    rw [h.cursor, ← hrest, List.drop_left]
  have hadded : (rest.take r.cursor.effectiveLimit).length = min r.cursor.effectiveLimit rest.length := List.length_take
  refine ⟨?_, ?_, ?_⟩
  · rw [hrecords, ← hrest]
    exact (List.prefix_append_right_inj _).2 (List.take_prefix _ _)
  · obtain ⟨n, hn⟩ : ∃ n, n = min r.cursor.effectiveLimit (l.length - r.cursor.first) := ⟨_, rfl⟩
    have hlast := getLast?_page l total r.cursor hn
    have hn' : (rest.take r.cursor.effectiveLimit).length = n := by
      rw [h.cursor] at hn
      omega
    rw [hrecords, List.length_append, hn', ← h.cursor]
    by_cases h0 : n = 0
    · have hnext : (L4.page l total r.cursor).next = none := by
        unfold L4.page at hlast ⊢
        simp only [hlast, if_pos h0, Option.filter_none, Option.map_none]
      rw [resumeLog, hnext, hlast, if_pos h0, h0]
      rfl
    · have hnext : ∀ c ∈ (L4.page l total r.cursor).next, c.first = r.cursor.first + n := by
        intro c hc
        unfold L4.page at hlast hc
        simp only [hlast, if_neg h0] at hc
        obtain ⟨index, hindex, rfl⟩ := Option.map_eq_some_iff.1 hc
        obtain ⟨hindex, -⟩ := Option.filter_eq_some_iff.1 hindex
        cases hindex
        show r.cursor.first + n - 1 + 1 = _
        omega
      rw [resumeLog, hlast, if_neg h0]
      cases hc : (L4.page l total r.cursor).next with
      | some c => exact hnext c hc
      | none =>
        show r.cursor.first + n - 1 + 1 = _
        omega
  · rw [hrecords, List.length_append, hadded]
    omega

/-- **One statement of `page`.** -/
theorem Follows.step (h : r.Follows t.log) (hst : r.step t x = some r') : r'.Follows t.log ∧ r.read <+: r'.read := by
  cases x with
  | rows limit =>
    simp only [LogReader.step] at hst
    split at hst
    · cases hst
      refine ⟨⟨h.read, h.cursor, fun l hl => ?_⟩, List.prefix_rfl⟩
      cases hl
      exact ⟨List.prefix_rfl, h.read⟩
    · cases hst
  | count =>
    obtain ⟨l, hl, rfl⟩ := Option.map_eq_some_iff.1 hst
    obtain ⟨hread, hcursor, -⟩ := h.page hl t.sequencedCount
    exact ⟨⟨hread.trans (storedEntries_grown (h.fetched l hl).1), hcursor, by simp⟩, List.prefix_append _ _⟩
  | fail =>
    cases hst
    exact ⟨⟨h.read, h.cursor, by simp⟩, List.prefix_rfl⟩

/-- The rows of the current page were selected when the log had so many entries. -/
def Sees (n : Nat) (r : LogReader H P) : Prop := ∀ l, r.fetched = some l → n ≤ l.length

/-- A page brings the reader on, up to the entries it was selected from. -/
theorem Follows.progress {n : Nat} (h : r.Follows t.log) (hn : n ≤ t.log.length) (hs : r.Sees n)
    (hst : r.step t x = some r') : r'.Sees n ∧ min n (r.read.length + x.pages) ≤ r'.read.length := by
  cases x with
  | rows limit =>
    simp only [LogReader.step] at hst
    split at hst
    · cases hst
      refine ⟨fun l hl => ?_, min_le_right _ _⟩
      cases hl
      exact hn
    · cases hst
  | count =>
    obtain ⟨l, hl, rfl⟩ := Option.map_eq_some_iff.1 hst
    refine ⟨by simp [Sees], le_trans ?_ (h.page hl t.sequencedCount).2.2⟩
    exact min_le_min_right _ (hs l hl)
  | fail =>
    cases hst
    exact ⟨by simp [Sees], min_le_right _ _⟩

end LogReader

/-! ## Reading a statement -/

/-- Lines of the first rows, and lines of the others that open with their sums, are the lines of all. -/
theorem statementLines_join {key : BalanceKey} {xs ys : List (PostingRow H P)}
    (hxs : ∀ r ∈ xs, r.posting.key = key ∧ r.postingIndex < 2 ^ 16) {b mid : Balance P} {front back : List (StatementLine P)}
    (hfront : Tables.statementLines b xs = .ok front) (hmid : ∀ d, mid.side d = b.side d + gross d key (xs.map (·.posting)))
    (hback : Tables.statementLines mid ys = .ok back) : Tables.statementLines b (xs ++ ys) = .ok (front ++ back) := by
  induction xs generalizing b front with
  | nil =>
    cases hfront
    obtain rfl : mid = b := Balance.ext_side fun d => by simpa [gross] using hmid d
    exact hback
  | cons r xs ih =>
    obtain ⟨hkey, hr⟩ := hxs r List.mem_cons_self
    obtain ⟨running, rest, hadd, hrest, rfl⟩ := (Tables.statementLines_cons_eq_ok hr).1 hfront
    refine (Tables.statementLines_cons_eq_ok hr).2 ⟨running, rest ++ back, hadd, ?_, rfl⟩
    refine ih (fun x hx => hxs x (List.mem_cons_of_mem _ hx)) hrest fun d => ?_
    rw [hmid, Balance.side_add hadd, List.map_cons, Tables.gross_cons]
    simp only [hkey, true_and]
    omega

namespace StatementReader

/-- What was read are the lines of the first rows, and the reader goes on after them. -/
structure Shows (key : BalanceKey) (front : List (PostingRow H P)) (r : StatementReader P) : Prop where
  read : Tables.statementLines .zero front = .ok r.read
  cursor : r.cursor.after = front.getLast?.map PostingRow.position
  opened : ∀ b, r.opened = some b → ∀ d, b.side d = gross d key (front.map (·.posting))

def Follows (B : Backend) (rows : List (PostingRow H P)) (r : StatementReader P) : Prop :=
  ∃ front, front <+: rows ∧ r.Shows (B.storedKey r.key) front

/-- The rows of a statement: of its key, in log order, at positions the columns can hold. -/
structure Listed (key : BalanceKey) (rows : List (PostingRow H P)) : Prop where
  increasing : rows.Pairwise fun a b => a.position < b.position
  key : ∀ r ∈ rows, r.posting.key = key
  room : ∀ r ∈ rows, r.index < 2 ^ 63 - 1 ∧ r.postingIndex ≤ 32767

theorem follows_start (B : Backend) (rows : List (PostingRow H P)) (key : BalanceKey) :
    (start key : StatementReader P).Follows B rows := ⟨[], List.nil_prefix, rfl, rfl, by simp [start]⟩

variable {B : Backend} {rows rows' front rest : List (PostingRow H P)} {key : BalanceKey} {t : Tables H P}
  {r r' : StatementReader P} {x : LineStep}

theorem Follows.grown (h : r.Follows B rows) (hg : rows <+: rows') : r.Follows B rows' := by
  obtain ⟨front, hfront, hshows⟩ := h
  exact ⟨front, hfront.trans hg, hshows⟩

theorem Listed.short (h : Listed key rows) : ∀ r ∈ rows, r.posting.key = key ∧ r.postingIndex < 2 ^ 16 := fun r hr => by
  have hroom := (h.room r hr).2
  exact ⟨h.key r hr, by omega⟩

theorem Listed.first (h : Listed key (front ++ rest)) : ∀ r ∈ front, r.posting.key = key ∧ r.postingIndex < 2 ^ 16 :=
  fun r hr => h.short r (List.mem_append_left _ hr)

theorem Shows.length (h : r.Shows key front) (hl : Listed key (front ++ rest)) : r.read.length = front.length := by
  have := congrArg List.length (Tables.map_linePosition (fun x hx => (hl.first x hx).2) h.read)
  simpa using this

/-- The page that opens after the first rows, when it is there: lines of the next ones, and a cursor after them. -/
theorem Shows.page (h : r.Shows key front) (hl : Listed key (front ++ rest)) {b : Balance P} (hb : r.opened = some b)
    {p : StatementPage P} (hp : linesPage B (front ++ rest) b r.cursor = .ok p) :
    Shows key (front ++ rest.take r.cursor.effectiveLimit) ⟨r.key, resumeStatement r.cursor p, r.read ++ p.lines, none⟩ := by
  obtain ⟨-, hback⟩ := shown_split (B := B) hl.increasing hl.room h.cursor
  obtain ⟨lines, hlines, hp⟩ := bind_eq_ok.1 hp
  rw [hback] at hlines
  cases hp
  have hpositions : lines.getLast?.map linePosition = (rest.take r.cursor.effectiveLimit).getLast?.map PostingRow.position := by
    have hshort : ∀ x ∈ rest.take r.cursor.effectiveLimit, x.postingIndex < 2 ^ 16 := fun x hx =>
      (hl.short x (List.mem_append_right _ (List.mem_of_mem_take hx))).2
    have := congrArg List.getLast? (Tables.map_linePosition hshort hlines)
    rwa [List.getLast?_map, List.getLast?_map] at this
  refine ⟨statementLines_join hl.first h.read (fun d => ?_) hlines, ?_, by simp⟩
  · rw [h.opened b hb, Balance.side_zero, zero_add]
  · rw [List.getLast?_append, Option.map_or, ← hpositions, ← h.cursor]
    unfold resumeStatement
    cases hx : lines.getLast? with
    | none => simp
    | some l => by_cases hmore : r.cursor.effectiveLimit < rest.length <;> simp [hback, hmore, linePosition]

/-- **One statement of `statement`.** -/
theorem Follows.step (h : r.Follows B rows) (hrows : t.postingRows (B.storedKey r.key) = rows)
    (hl : Listed (B.storedKey r.key) rows) (hst : r.step B t x = some r') :
    r'.key = r.key ∧ r'.Follows B rows ∧ r.read <+: r'.read := by
  obtain ⟨front, hfront, hshows⟩ := h
  obtain ⟨rest, hrest⟩ := hfront
  cases x with
  | opening limit =>
    simp only [StatementReader.step, hrows] at hst
    split at hst
    · cases hst
      refine ⟨rfl, ⟨front, ⟨rest, hrest⟩, hshows.read, hshows.cursor, fun b hb d => ?_⟩, List.prefix_rfl⟩
      have hopening := toOption_eq_some.1 hb
      unfold Tables.opening at hopening
      split at hopening
      · rw [Tables.sumRow_eq_ok.1 hopening d, ← hrest]
        rw [← hrest] at hl
        have hafter : (r.cursor.withLimit limit).after = front.getLast?.map PostingRow.position := hshows.cursor
        rw [(shown_split (B := B) hl.increasing hl.room hafter).1]
      · rename_i hnone
        cases hopening
        have hnil : front = [] := by
          have hcursor := hshows.cursor
          rw [show r.cursor.after = none by simpa [PostingCursor.withLimit] using hnone] at hcursor
          simpa using hcursor.symm
        rw [hnil, Balance.side_zero]
        rfl
    · cases hst
  | lines =>
    obtain ⟨b, hb, rfl⟩ := Option.map_eq_some_iff.1 hst
    rw [hrows]
    split
    · exact ⟨rfl, ⟨front, ⟨rest, hrest⟩, hshows.read, hshows.cursor, by simp⟩, List.prefix_rfl⟩
    · rename_i p hp
      rw [← hrest] at hp hl
      refine ⟨rfl, ⟨front ++ rest.take r.cursor.effectiveLimit, ?_, hshows.page hl hb hp⟩, List.prefix_append _ _⟩
      rw [← hrest]
      exact (List.prefix_append_right_inj _).2 (List.take_prefix _ _)
  | fail =>
    cases hst
    exact ⟨rfl, ⟨front, ⟨rest, hrest⟩, hshows.read, hshows.cursor, by simp⟩, List.prefix_rfl⟩

/-- Where the lines of all rows are there, a page brings the reader on. -/
theorem Follows.progress {n : Nat} (h : r.Follows B rows) (hrows : t.postingRows (B.storedKey r.key) = rows)
    (hl : Listed (B.storedKey r.key) rows) (hst : r.step B t x = some r') {all : List (StatementLine P)}
    (hall : Tables.statementLines .zero rows = .ok all) (hn : n ≤ rows.length) :
    min n (r.read.length + x.pages) ≤ r'.read.length := by
  obtain ⟨front, ⟨rest, hrest⟩, hshows⟩ := h
  rw [← hrest] at hl hall hn
  cases x with
  | opening limit =>
    simp only [StatementReader.step] at hst
    split at hst <;> cases hst
    exact min_le_right _ _
  | lines =>
    obtain ⟨b, hb, rfl⟩ := Option.map_eq_some_iff.1 hst
    have hlimit : 0 < r.cursor.effectiveLimit := r.cursor.effectiveLimit_pos
    obtain ⟨mid, hmid, -, hlines⟩ := Tables.statementLines_append hl.first hall
    obtain rfl : mid = b := Balance.ext_side fun d => by rw [hmid, hshows.opened b hb, Balance.side_zero, zero_add]
    rw [← List.take_append_drop r.cursor.effectiveLimit rest] at hlines
    obtain ⟨-, -, hpage, -⟩ := Tables.statementLines_append
      (fun x hx => hl.short x (List.mem_append_right _ (List.mem_of_mem_take hx))) hlines
    obtain ⟨-, hback⟩ := shown_split (B := B) hl.increasing hl.room hshows.cursor
    have hp : ∃ p, linesPage B (front ++ rest) mid r.cursor = .ok p := by
      unfold linesPage
      simp only [hback, hpage, bind, Except.bind]
      exact ⟨_, rfl⟩
    obtain ⟨p, hp⟩ := hp
    have hlisted : Listed (B.storedKey r.key) ((front ++ rest.take r.cursor.effectiveLimit) ++ rest.drop r.cursor.effectiveLimit) := by
      rwa [List.append_assoc, List.take_append_drop]
    have hlength := (hshows.page hl hb hp).length hlisted
    have hread := hshows.length hl
    simp only [hrows, ← hrest, hp]
    simp only [List.length_append, List.length_take] at hlength hn ⊢
    show min n (r.read.length + 1) ≤ _
    omega
  | fail =>
    cases hst
    exact min_le_right _ _

end StatementReader

/-! ## Runs -/

namespace Followed

variable [Blake3 H] {B : Backend} {s s' : Followed H P} {l : Turn H P} {i : Nat}

/-- The tables hold a log of short entries, and every reader follows it. -/
structure Following (B : Backend) (s : Followed H P) : Prop where
  log : s.store.tables.LogInv s.log
  short : s.store.Short
  room : s.store.tables.entries.length < 2 ^ 63
  readers : ∀ r ∈ s.readers, r.Follows s.log
  statements : ∀ r ∈ s.statements, r.Follows B (s.rows B r.key)

theorem Following.postingRows (h : Following B s) (key : BalanceKey) :
    s.store.tables.postingRows (B.storedKey key) = s.rows B key := Tables.postingRows_eq h.log.logOf _

theorem Following.listed (h : Following B s) (key : BalanceKey) : StatementReader.Listed (B.storedKey key) (s.rows B key) where
  increasing := rowsOn_increasing _ _
  key r hr := (mem_rowsOn.1 hr).2.2
  room r hr := by
    obtain ⟨he, hp, -⟩ := mem_rowsOn.1 hr
    obtain ⟨hindex, -⟩ := List.getElem?_eq_some_iff.1 he
    obtain ⟨hposting, -⟩ := List.getElem?_eq_some_iff.1 hp
    have hcount := Tables.sequencedCount_eq h.log.logOf
    have hle : s.store.tables.sequencedCount ≤ s.store.tables.entries.length := List.length_filterMap_le _ _
    have hroom := h.room
    rw [List.length_map] at hindex
    have hshort : r.entry.postings.length ≤ 32767 := by
      obtain ⟨x, hx, hxr⟩ := List.mem_map.1 (List.mem_of_getElem? he)
      obtain ⟨y, hy, rfl⟩ := List.mem_map.1 hx
      obtain ⟨row, hrow, hy⟩ := List.mem_filterMap.1 ((List.mem_insertionSort _).1 hy)
      obtain ⟨place, -, rfl⟩ := Option.map_eq_some_iff.1 hy
      rw [← hxr]
      exact h.short.rows row hrow
    exact ⟨by omega, by omega⟩

theorem following_initial (ledger : LedgerId) (clients readers : Nat) (keys : List BalanceKey) :
    Following B (initial ledger clients readers keys : Followed H P) where
  log := Tables.logInv_empty ledger
  short := St.short_initial ledger clients
  room := by
    show 0 < 2 ^ 63
    omega
  readers r hr := by
    rw [List.eq_of_mem_replicate hr]
    exact LogReader.follows_start _
  statements r hr := by
    obtain ⟨key, -, rfl⟩ := List.mem_map.1 hr
    exact StatementReader.follows_start _ _ _

omit [Blake3 H] in
theorem rows_grown (h : s.log <+: s'.log) (key : BalanceKey) : s.rows B key <+: s'.rows B key := by
  obtain ⟨more, hmore⟩ := h
  obtain ⟨rows, hrows⟩ := rowsOn_append (s.log.map (·.entry)) (more.map (·.entry)) (B.storedKey key)
  refine ⟨rows, ?_⟩
  unfold Followed.rows
  rw [← hmore, List.map_append]
  exact hrows.symm

variable [DecidableEq H]

/-- A step of the store only extends the log. -/
theorem Following.store (h : Following B s) {t : St H P} {l : Lbl H P} (hst : s.store.step B l = some t)
    (hroom : t.tables.entries.length < 2 ^ 63) : s.log <+: t.tables.log ∧ Following B { s with store := t } := by
  have heffect := St.effect_of_step hst
  obtain ⟨more, hlog, hmore, -⟩ := heffect.log h.log
  have hgrown : s.log <+: t.tables.log := ⟨more, hmore.symm⟩
  refine ⟨hgrown, hlog, heffect.short h.log h.short, hroom, fun r hr => (h.readers r hr).grown hgrown, fun r hr => ?_⟩
  have hrows : s.rows B r.key <+: Followed.rows B { s with store := t } r.key := rows_grown hgrown r.key
  exact (h.statements r hr).grown hrows

/-- **One step.** -/
theorem following_step (h : Following B s) (hst : s.step B l = some s') : Following B s' := by
  cases l with
  | store l =>
    obtain ⟨t, ht, hst⟩ := Option.bind_eq_some_iff.1 hst
    split at hst
    · rename_i hroom
      cases hst
      exact (h.store ht hroom).2
    · cases hst
  | page i x =>
    obtain ⟨r, hr, hst⟩ := Option.bind_eq_some_iff.1 hst
    obtain ⟨r', hr', rfl⟩ := Option.map_eq_some_iff.1 hst
    refine ⟨h.log, h.short, h.room, fun y hy => ?_, h.statements⟩
    rcases List.mem_or_eq_of_mem_set hy with hy | rfl
    · exact h.readers y hy
    · exact ((h.readers r (List.mem_of_getElem? hr)).step hr').1
  | line i x =>
    obtain ⟨r, hr, hst⟩ := Option.bind_eq_some_iff.1 hst
    obtain ⟨r', hr', rfl⟩ := Option.map_eq_some_iff.1 hst
    refine ⟨h.log, h.short, h.room, h.readers, fun y hy => ?_⟩
    rcases List.mem_or_eq_of_mem_set hy with hy | rfl
    · exact h.statements y hy
    · obtain ⟨hkey, hfollows, -⟩ := (h.statements r (List.mem_of_getElem? hr)).step (h.postingRows _) (h.listed _) hr'
      rw [hkey]
      exact hfollows

theorem log_of_step (h : Following B s) (hst : s.step B l = some s') : s.log <+: s'.log := by
  cases l with
  | store l =>
    obtain ⟨t, ht, hst⟩ := Option.bind_eq_some_iff.1 hst
    split at hst
    · rename_i hroom
      cases hst
      exact (h.store ht hroom).1
    · cases hst
  | page i x =>
    obtain ⟨r, -, hst⟩ := Option.bind_eq_some_iff.1 hst
    obtain ⟨r', -, rfl⟩ := Option.map_eq_some_iff.1 hst
    exact List.prefix_rfl
  | line i x =>
    obtain ⟨r, -, hst⟩ := Option.bind_eq_some_iff.1 hst
    obtain ⟨r', -, rfl⟩ := Option.map_eq_some_iff.1 hst
    exact List.prefix_rfl

theorem following_of_reachable (h : (system B).Reachable s) : Following B s := by
  refine LTS.Inductive.reachable (T := system B) (I := Following B) ⟨fun s hs => ?_, fun s l s' hi st => following_step hi st⟩ h
  obtain ⟨ledger, clients, readers, keys, rfl⟩ := hs
  exact following_initial ledger clients readers keys

/-- The pages a step finishes for reader `i`. -/
def pagesOf (i : Nat) : Turn H P → Nat
  | .page j x => if j = i then x.pages else 0
  | _ => 0

def linesOf (i : Nat) : Turn H P → Nat
  | .line j x => if j = i then x.pages else 0
  | _ => 0

/-- A reader of the log stays as it is, or takes a step of its own. -/
theorem reader_of_step (hst : s.step B l = some s') {r : LogReader H P} (hr : s.readers[i]? = some r) :
    ∃ r', s'.readers[i]? = some r' ∧
      (r' = r ∧ pagesOf i l = 0 ∨ ∃ x, pagesOf i l = x.pages ∧ r.step s.store.tables x = some r') := by
  cases l with
  | store l =>
    obtain ⟨t, -, hst⟩ := Option.bind_eq_some_iff.1 hst
    split at hst <;> cases hst
    exact ⟨r, hr, .inl ⟨rfl, rfl⟩⟩
  | page j x =>
    obtain ⟨q, hq, hst⟩ := Option.bind_eq_some_iff.1 hst
    obtain ⟨q', hq', rfl⟩ := Option.map_eq_some_iff.1 hst
    by_cases hij : j = i
    · subst hij
      obtain rfl : q = r := Option.some.inj (hq.symm.trans hr)
      obtain ⟨hlt, -⟩ := List.getElem?_eq_some_iff.1 hq
      exact ⟨q', by simp [hlt], .inr ⟨x, by simp [pagesOf], hq'⟩⟩
    · exact ⟨r, by simp [List.getElem?_set_ne hij, hr], .inl ⟨rfl, by simp [pagesOf, hij]⟩⟩
  | line j x =>
    obtain ⟨q, -, hst⟩ := Option.bind_eq_some_iff.1 hst
    obtain ⟨q', -, rfl⟩ := Option.map_eq_some_iff.1 hst
    exact ⟨r, hr, .inl ⟨rfl, rfl⟩⟩

theorem statement_of_step (hst : s.step B l = some s') {r : StatementReader P} (hr : s.statements[i]? = some r) :
    ∃ r', s'.statements[i]? = some r' ∧
      (r' = r ∧ linesOf i l = 0 ∨ ∃ x, linesOf i l = x.pages ∧ r.step B s.store.tables x = some r') := by
  cases l with
  | store l =>
    obtain ⟨t, -, hst⟩ := Option.bind_eq_some_iff.1 hst
    split at hst <;> cases hst
    exact ⟨r, hr, .inl ⟨rfl, rfl⟩⟩
  | page j x =>
    obtain ⟨q, -, hst⟩ := Option.bind_eq_some_iff.1 hst
    obtain ⟨q', -, rfl⟩ := Option.map_eq_some_iff.1 hst
    exact ⟨r, hr, .inl ⟨rfl, rfl⟩⟩
  | line j x =>
    obtain ⟨q, hq, hst⟩ := Option.bind_eq_some_iff.1 hst
    obtain ⟨q', hq', rfl⟩ := Option.map_eq_some_iff.1 hst
    by_cases hij : j = i
    · subst hij
      obtain rfl : q = r := Option.some.inj (hq.symm.trans hr)
      obtain ⟨hlt, -⟩ := List.getElem?_eq_some_iff.1 hq
      exact ⟨q', by simp [hlt], .inr ⟨x, by simp [linesOf], hq'⟩⟩
    · exact ⟨r, by simp [List.getElem?_set_ne hij, hr], .inl ⟨rfl, by simp [linesOf, hij]⟩⟩

variable {ls : List (Turn H P)}

/-- Over a run, a reader of the log keeps what it has, and each page brings it on. -/
theorem reader_of_run (h : Following B s) (hr : (system B).Run s ls s') {n : Nat} (hn : n ≤ s.log.length)
    {r : LogReader H P} (hi : s.readers[i]? = some r) (hs : r.Sees n) :
    ∃ r', s'.readers[i]? = some r' ∧ r.read <+: r'.read ∧
      min n (r.read.length + (ls.map (pagesOf i)).sum) ≤ r'.read.length := by
  induction hr generalizing r with
  | nil => exact ⟨r, hi, List.prefix_rfl, min_le_right _ _⟩
  | @cons s s₁ s' l ls st _ ih =>
    obtain ⟨r₁, hi₁, hstep⟩ := reader_of_step st hi
    have hread : r.read <+: r₁.read ∧ r₁.Sees n ∧ min n (r.read.length + pagesOf i l) ≤ r₁.read.length := by
      rcases hstep with ⟨rfl, hpages⟩ | ⟨x, hpages, hx⟩
      · exact ⟨List.prefix_rfl, hs, by omega⟩
      · have hfollows := h.readers r (List.mem_of_getElem? hi)
        rw [hpages]
        exact ⟨(hfollows.step hx).2, hfollows.progress hn hs hx⟩
    obtain ⟨hread, hs₁, hpages⟩ := hread
    obtain ⟨r', hi', hread', hpages'⟩ := ih (following_step h st) (hn.trans (log_of_step h st).length_le) hi₁ hs₁
    refine ⟨r', hi', hread.trans hread', ?_⟩
    rw [List.map_cons, List.sum_cons]
    omega

theorem log_of_run (h : Following B s) (hr : (system B).Run s ls s') : s.log <+: s'.log :=
  LTS.Run.rel (T := system B) (I := Following B) (R := fun s s' => s.log <+: s'.log) (fun _ _ _ hi st => following_step hi st)
    (fun _ => List.prefix_rfl) (fun _ _ _ => List.IsPrefix.trans) (fun _ _ _ hi st => log_of_step hi st) hr h

/-- So does a reader of a statement; each page brings it on where all running balances are in range. -/
theorem statement_of_run (h : Following B s) (hr : (system B).Run s ls s') {n : Nat} {r : StatementReader P}
    (hn : n ≤ (s.rows B r.key).length) (hi : s.statements[i]? = some r) :
    ∃ r', s'.statements[i]? = some r' ∧ r'.key = r.key ∧ r.read <+: r'.read ∧
      ∀ all, Tables.statementLines .zero (s'.rows B r.key) = .ok all →
        min n (r.read.length + (ls.map (linesOf i)).sum) ≤ r'.read.length := by
  induction hr generalizing r with
  | nil => exact ⟨r, hi, rfl, List.prefix_rfl, fun _ _ => min_le_right _ _⟩
  | @cons s s₁ s' l ls st hr ih =>
    have h₁ := following_step h st
    obtain ⟨r₁, hi₁, hstep⟩ := statement_of_step st hi
    have hread : r₁.key = r.key ∧ r.read <+: r₁.read ∧ ∀ all, Tables.statementLines .zero (s.rows B r.key) = .ok all →
        min n (r.read.length + linesOf i l) ≤ r₁.read.length := by
      rcases hstep with ⟨rfl, hpages⟩ | ⟨x, hpages, hx⟩
      · exact ⟨rfl, List.prefix_rfl, fun _ _ => by omega⟩
      · have hfollows := h.statements r (List.mem_of_getElem? hi)
        obtain ⟨hkey, -, hread⟩ := hfollows.step (h.postingRows _) (h.listed _) hx
        rw [hpages]
        exact ⟨hkey, hread, fun all hall => hfollows.progress (h.postingRows _) (h.listed _) hx hall hn⟩
    obtain ⟨hkey, hread, hpages⟩ := hread
    have hgrown : s.rows B r.key <+: s₁.rows B r₁.key := hkey ▸ rows_grown (log_of_step h st) _
    obtain ⟨r', hi', hkey', hread', hpages'⟩ := ih h₁ (hn.trans hgrown.length_le) hi₁
    rw [hkey] at hkey' hpages'
    refine ⟨r', hi', hkey', hread.trans hread', fun all hall => ?_⟩
    -- the rows of `s` come first, so that their lines are there as well
    have hfirst : ∃ lines, Tables.statementLines .zero (s.rows B r.key) = .ok lines := by
      obtain ⟨more, hmore⟩ := rows_grown (B := B) ((log_of_step h st).trans (log_of_run h₁ hr)) r.key
      rw [← hmore] at hall
      obtain ⟨-, -, hlines, -⟩ := Tables.statementLines_append (h.listed r.key).short hall
      exact ⟨_, hlines⟩
    obtain ⟨lines, hlines⟩ := hfirst
    have hone := hpages lines hlines
    have hmore := hpages' all hall
    rw [List.map_cons, List.sum_cons]
    omega

/-- **Readers miss nothing.** In every run of a store and its readers, whatever comes
between the statements of a call: what a reader of the log has at the end goes on from
what it had, and is a prefix of the log in log order. After as many pages as it missed
entries at the start it has all of those. -/
theorem log_readers_follow (h : (system B).Reachable s) (hr : (system B).Run s ls s') {r : LogReader H P}
    (hi : s.readers[i]? = some r) (hidle : r.fetched = none) :
    ∃ r', s'.readers[i]? = some r' ∧ r.read <+: r'.read ∧ r'.read <+: storedEntries s'.log ∧
      min s.log.length (r.read.length + (ls.map (pagesOf i)).sum) ≤ r'.read.length := by
  have hs := following_of_reachable h
  obtain ⟨r', hi', hread, hpages⟩ := reader_of_run hs hr le_rfl hi fun l hl => by rw [hidle] at hl; cases hl
  have hs' := following_of_reachable (h.run hr)
  exact ⟨r', hi', hread, (hs'.readers r' (List.mem_of_getElem? hi')).read, hpages⟩

/-- **Statements stay consistent.** In every run, what a reader of a statement has at the
end goes on from what it had, and is the lines of the first rows of its key in the log as
it is then: no line is missing or shown twice, and each has the running balance the whole
statement gives it. While that statement is in range, pages bring the reader on as they do
a reader of the log. -/
theorem statement_readers_follow (h : (system B).Reachable s) (hr : (system B).Run s ls s') {r : StatementReader P}
    (hi : s.statements[i]? = some r) :
    ∃ r', s'.statements[i]? = some r' ∧ r.read <+: r'.read ∧
      Tables.statementLines .zero ((s'.rows B r.key).take r'.read.length) = .ok r'.read ∧
      ∀ all, Tables.statementLines .zero (s'.rows B r.key) = .ok all →
        r'.read <+: all ∧ min (s.rows B r.key).length (r.read.length + (ls.map (linesOf i)).sum) ≤ r'.read.length := by
  have hs := following_of_reachable h
  obtain ⟨r', hi', hkey, hread, hpages⟩ := statement_of_run hs hr le_rfl hi
  have hs' := following_of_reachable (h.run hr)
  obtain ⟨front, ⟨rest, hrest⟩, hshows⟩ := hs'.statements r' (List.mem_of_getElem? hi')
  rw [hkey] at hrest hshows
  have hlisted := hs'.listed r.key
  rw [← hrest] at hlisted hpages ⊢
  refine ⟨r', hi', hread, ?_, fun all hall => ⟨?_, hpages all hall⟩⟩
  · rw [hshows.length hlisted, List.take_left]
    exact hshows.read
  · obtain ⟨-, -, hfront, -⟩ := Tables.statementLines_append hlisted.first hall
    rw [Except.ok.inj (hshows.read.symm.trans hfront)]
    exact List.take_prefix _ _

/-! ## A sample run -/

/-- A sale gets its position between the two statements of either call. -/
def saleSequenced : List (Turn Preimage cents) :=
  (St.marchSale ++ [Lbl.begin [St.soldInMarch], .commit 0]).map Turn.store ++
    [.page 0 (.rows 1), .line 0 (.opening 1), .store (.sequence 1), .page 0 .count]

/-- The reader of the log starts over, that of the statement goes on. -/
def saleRead : List (Turn Preimage cents) := [.page 0 (.rows 1), .line 0 .lines, .page 0 .count]

/-- A client, a reader of the log and one of the cash account. -/
def marchReaders : Followed Preimage cents := initial books 1 1 [⟨cashId, .eur, .settled⟩]

def followed (ls : List (Turn Preimage cents)) : Followed Preimage cents :=
  (LTS.exec (step .postgres) marchReaders ls).getD marchReaders

set_option maxRecDepth 10000 in
theorem followed_run : (system .postgres).Reachable (followed saleSequenced) ∧
    (system .postgres).Run (followed saleSequenced) saleRead (followed (saleSequenced ++ saleRead)) := by
  have hfirst : (LTS.exec (step .postgres) marchReaders saleSequenced).isSome = true := by decide
  have hall : (LTS.exec (step .postgres) marchReaders (saleSequenced ++ saleRead)).isSome = true := by decide
  have hfirst := LTS.exec_getD (d := marchReaders) hfirst
  have hall := LTS.exec_getD (d := marchReaders) hall
  rw [LTS.exec_append, hfirst] at hall
  exact ⟨LTS.reachable_of_exec saleSequenced ⟨books, 1, 1, _, rfl⟩ hfirst, LTS.run_of_exec hall⟩

set_option maxRecDepth 10000 in
/-- Not vacuous: the page that was counted after the sale had its position was selected
before, and the next one has it. -/
theorem sale_followed : (followed saleSequenced).log.length = 1 ∧
    ∃ r, (followed (saleSequenced ++ saleRead)).readers[0]? = some r ∧ 1 ≤ r.read.length := by
  have hlog : (followed saleSequenced).log.length = 1 := by decide
  have hidle : (followed saleSequenced).readers[0]?.map (fun r => r.fetched.isNone) = some true := by decide
  have hpage : (saleRead.map (pagesOf 0)).sum = 1 := by decide
  obtain ⟨r₀, hr₀, hidle⟩ := Option.map_eq_some_iff.1 hidle
  obtain ⟨r, hr, -, -, hpages⟩ := log_readers_follow followed_run.1 followed_run.2 hr₀ (Option.isNone_iff_eq_none.1 hidle)
  exact ⟨hlog, r, hr, by omega⟩

set_option maxRecDepth 10000 in
/-- Not vacuous: a statement opens before the sale has its position, and its lines come after. -/
theorem sale_stated : ∃ r, (followed (saleSequenced ++ saleRead)).statements[0]? = some r ∧ r.read.length = 1 ∧
    Tables.statementLines .zero (((followed (saleSequenced ++ saleRead)).rows .postgres ⟨cashId, .eur, .settled⟩).take
      r.read.length) = .ok r.read := by
  have hkey : (followed saleSequenced).statements[0]?.map (·.key) = some ⟨cashId, .eur, .settled⟩ := by decide
  have hread : (followed (saleSequenced ++ saleRead)).statements[0]?.map (·.read.length) = some 1 := by decide
  obtain ⟨r₀, hr₀, hkey⟩ := Option.map_eq_some_iff.1 hkey
  obtain ⟨r, hr, -, hlines, -⟩ := statement_readers_follow followed_run.1 followed_run.2 hr₀
  rw [hr] at hread
  rw [hkey] at hlines
  exact ⟨r, hr, Option.some.inj hread, hlines⟩

end Followed

end DoubleEntry.L5
