import DoubleEntry.Core.Paging
import DoubleEntry.L4Store.ClearingTables
import DoubleEntry.L4Store.ColdTierRun
import DoubleEntry.L4Store.Retries
import DoubleEntry.L4Store.SqlLog

/-!
# Paging

The log, the statement of a key and its open items are read page by page. The store in
memory cuts a page out of the whole list, behind the position of the cursor; SQLite
selects the rows behind it, and opens a statement with the sum of the rows before.

**Assumptions.** The journal in the store is one that operations on sealed entries reach, and
batches are of sealed entries. For SQLite, that its log is the entries of the journal and its
clearings those of the register.

**Results.**
* `pages_page`, `statement_page`, `openItems_page`: a page of each list.
* `postingRows_eq`: the rows that SQLite selects are those of the log.
* `statement_eq`, `openItems_eq`: the lists of the journal are made from the rows that
  the SQL ones are made from.
* `pages_complete`: whatever the limits, following the cursors gives the lists of the
  journal, and the two stores give the same pages.
-/
namespace DoubleEntry.L4

open DoubleEntry.Core DoubleEntry.L1 DoubleEntry.L2 DoubleEntry.L3

variable {H : Type} {P : Scale}

/-! ## Pages of the store in memory -/

def Cursor.withLimit (c : Cursor) (n : Nat) : Cursor := { c with limit := n }

namespace PostingCursor

def start : PostingCursor := ⟨none, defaultPageSize⟩

def withLimit (c : PostingCursor) (n : Nat) : PostingCursor := { c with limit := n }

end PostingCursor

/-- mirrors src/storage.rs:673-678 -/
def linePosition (line : StatementLine P) : PostingPosition := ⟨line.index, line.posting.index⟩

namespace MemoryStore

/-- The part of a list behind a cursor, and a cursor behind that part. -/
def pageFrom {α : Type} (position : α → PostingPosition) (all : List α) (cursor : PostingCursor) :
    List α × Option PostingCursor :=
  let start := startAfter position all cursor.after
  let items := (all.drop start).take cursor.effectiveLimit
  let next := if start + items.length < all.length then
      items.getLast?.map fun x => ⟨some (position x), cursor.limit⟩
    else none
  (items, next)

variable [Blake3 H]

/-- The entries as leaves of the log. -/
def leaves (j : Journal H P) : List (Logged H P) := j.entries.map fun e => ⟨e, e.contentHash⟩

/-- mirrors src/storage.rs:972-998 -/
def page (j : Journal H P) (cursor : Cursor) : Except (JournalError H) (Page H P) :=
  .ok (L4.page (leaves j) j.entries.length cursor)

/-- mirrors src/storage.rs:1180-1219 -/
def statement (j : Journal H P) (key : BalanceKey) (cursor : PostingCursor) : Except MoneyError (StatementPage P) :=
  (j.statement key).map fun all =>
    let page := pageFrom linePosition all cursor
    ⟨page.1, page.2⟩

/-- mirrors src/storage.rs:1128-1152 -/
def openItems (j : Journal H P) (key : BalanceKey) (cursor : PostingCursor) : Except (JournalError H) (OpenItemPage P) :=
  (j.openItems key).map fun all =>
    let page := pageFrom (·.position) all cursor
    ⟨page.1, page.2⟩

end MemoryStore

/-- Drains the pages of a store, at most `fuel` of them. mirrors src/storage.rs:583-600 -/
def allOpenItems {ε : Type} (openItems : BalanceKey → PostingCursor → Except ε (OpenItemPage P)) (fuel : Nat)
    (key : BalanceKey) : Except ε (Option (List (OpenItem P))) :=
  drain (fun cursor => (openItems key cursor).map fun page => (page.items, page.next)) fuel []
    (some (PostingCursor.start.withLimit maxPageSize))

/-! ## They page through the whole -/

theorem PostingCursor.effectiveLimit_pos (c : PostingCursor) : 0 < c.effectiveLimit := by
  unfold PostingCursor.effectiveLimit
  omega

/-- The position of the last record of a page. -/
theorem getLast?_page (log : List (Logged H P)) (total : Nat) (c : Cursor) {n : Nat}
    (hn : n = min c.effectiveLimit (log.length - c.first)) :
    (page log total c).records.getLast?.bind (·.index) = if n = 0 then none else some (c.first + n - 1) := by
  have hrecords : (page log total c).records = segment log c.first (c.first + c.effectiveLimit) := by
    rw [segment, List.drop_take, Nat.add_sub_cancel_left]
    rfl
  have hlen : (segment log c.first (c.first + c.effectiveLimit)).length = n := by
    rw [length_segment]
    omega
  have hlast := congrArg List.getLast? (indices_segment log c.first (c.first + c.effectiveLimit))
  rw [hlen, List.getLast?_map, List.getLast?_map, List.getLast?_range', ← hrecords] at hlast
  have hbind : ∀ x : Option (StoredEntry H P), x.bind (·.index) = (x.map (·.index)).join := fun x => by cases x <;> rfl
  rw [hbind, hlast]
  by_cases h0 : n = 0 <;> simp [h0]

/-- A page of the log goes on where the last one ended. -/
theorem pages_page (ε : Type) (log : List (Logged H P)) :
    Pages (fun c => (.ok ((page log log.length c).records, (page log log.length c).next) :
      Except ε (List (StoredEntry H P) × Option Cursor))) fun c => (storedEntries log).drop c.first := by
  intro c
  obtain ⟨n, hn⟩ : ∃ n, n = min c.effectiveLimit (log.length - c.first) := ⟨_, rfl⟩
  have hlimit : 0 < c.effectiveLimit := by
    unfold Cursor.effectiveLimit
    omega
  have hlen : ((storedEntries log).drop c.first).length = log.length - c.first := by simp [storedEntries]
  have hrecords : (page log log.length c).records = ((storedEntries log).drop c.first).take c.effectiveLimit := rfl
  have hnext : (page log log.length c).next =
      if n ≠ 0 ∧ c.first + n < log.length then some ⟨some (c.first + n - 1), c.limit⟩ else none := by
    have hlast := getLast?_page log log.length c hn
    unfold page at hlast ⊢
    simp only [hlast]
    by_cases h0 : n = 0
    · simp [h0]
    · have hsucc : c.first + n - 1 + 1 = c.first + n := by omega
      by_cases hmore : c.first + n < log.length
      · simp [h0, hsucc, hmore]
      · simp [h0, hsucc, hmore, not_lt.1 hmore]
  refine ⟨_, _, rfl, ?_, ?_⟩
  · by_cases hmore : n ≠ 0 ∧ c.first + n < log.length
    · obtain rfl : n = c.effectiveLimit := by omega
      have hfirst : Cursor.first ⟨some (c.first + c.effectiveLimit - 1), c.limit⟩ = c.first + c.effectiveLimit := by
        show c.first + c.effectiveLimit - 1 + 1 = _
        omega
      rw [hnext, if_pos hmore, Option.elim_some, hfirst, ← List.drop_drop]
      exact (List.take_append_drop _ _).symm
    · rw [hnext, if_neg hmore, Option.elim_none, List.append_nil, hrecords, List.take_of_length_le]
      omega
  · intro hsome hnil
    rw [hnext] at hsome
    have hnone : n = 0 := by
      have := congrArg List.length hnil
      rw [hrecords, List.length_take, hlen, List.length_nil] at this
      omega
    simp [hnone] at hsome

namespace MemoryStore

variable {α : Type} {position : α → PostingPosition} {all : List α}

/-- The page behind the first item after a position is the page after the position. -/
theorem pageFrom_eq (h : all.Pairwise fun x y => position x < position y) (c : PostingCursor) :
    pageFrom position all c = pageOf position all (·.after) PostingCursor.effectiveLimit
      (fun c x => ⟨some (position x), c.limit⟩) c := by
  have hdrop := drop_startAfter h c.after
  have hmore : startAfter position all c.after + ((leftAfter position all c.after).take c.effectiveLimit).length < all.length ↔
      c.effectiveLimit < (leftAfter position all c.after).length := by
    have hle : startAfter position all c.after ≤ all.length := startAfter_le _
    rw [← hdrop, List.length_take, List.length_drop]
    omega
  unfold pageFrom pageOf
  simp only [hdrop, hmore]

variable {ε : Type} {read : PostingCursor → Except ε (List α × Option PostingCursor)}

theorem pages_pageFrom (h : all.Pairwise fun x y => position x < position y)
    (hread : ∀ c, read c = .ok (pageFrom position all c)) : Pages read fun c => leftAfter position all c.after := by
  obtain rfl : read = fun c => .ok (pageFrom position all c) := funext hread
  simp only [pageFrom_eq h]
  exact pages_pageOf h PostingCursor.effectiveLimit_pos fun _ _ => rfl

theorem complete_pageFrom (h : all.Pairwise fun x y => position x < position y)
    (hread : ∀ c, read c = .ok (pageFrom position all c)) : Complete read PostingCursor.withLimit .start all :=
  (pages_pageFrom h hread).complete PostingCursor.withLimit (fun _ _ => rfl) rfl

theorem drain_pageFrom (h : all.Pairwise fun x y => position x < position y)
    (hread : ∀ c, read c = .ok (pageFrom position all c)) {fuel : Nat} (hfuel : all.length < fuel) {limit : Nat} :
    drain read fuel [] (some (PostingCursor.start.withLimit limit)) = .ok (some all) :=
  drain_eq (c := PostingCursor.start.withLimit limit) (pages_pageFrom h hread) hfuel

end MemoryStore

/-! ## Rows in log order -/

/-- The position of a row. -/
def PostingRow.position (r : PostingRow H P) : PostingPosition := ⟨r.index, r.postingIndex⟩

/-- The postings on a key as the rows of `entries` and `postings` have them. -/
def rowsOn (entries : List (Entry H .balanced P)) (key : BalanceKey) : List (PostingRow H P) :=
  entries.zipIdx.flatMap fun x => (x.1.postings.zipIdx.filter fun p => p.1.key = key).map fun p => ⟨x.2, p.2, x.1, p.1⟩

theorem mem_rowsOn {entries : List (Entry H .balanced P)} {key : BalanceKey} {r : PostingRow H P} :
    r ∈ rowsOn entries key ↔ entries[r.index]? = some r.entry ∧ r.entry.postings[r.postingIndex]? = some r.posting ∧
      r.posting.key = key := by
  unfold rowsOn
  simp only [List.mem_flatMap, List.mem_map, List.mem_filter, List.mem_zipIdx_iff_getElem?, decide_eq_true_eq, Prod.exists]
  constructor
  · rintro ⟨e, i, he, p, k, ⟨hp, hkey⟩, rfl⟩
    exact ⟨he, hp, hkey⟩
  · intro ⟨he, hp, hkey⟩
    exact ⟨r.entry, r.index, he, r.posting, r.postingIndex, ⟨hp, hkey⟩, rfl⟩

theorem rowsOn_increasing (entries : List (Entry H .balanced P)) (key : BalanceKey) :
    (rowsOn entries key).Pairwise fun a b => a.position < b.position := by
  have hnumbers : ∀ {α : Type} (l : List α), l.zipIdx.Pairwise fun a b => a.2 < b.2 := fun l => by
    refine List.pairwise_map.1 ?_
    rw [List.zipIdx_map_snd]
    exact List.pairwise_lt_range'
  unfold rowsOn
  rw [List.pairwise_flatMap]
  constructor
  · intro x _
    refine List.pairwise_map.2 (((hnumbers _).filter _).imp fun hlt => ?_)
    exact PostingPosition.lt_iff.2 (.inr ⟨rfl, hlt⟩)
  · refine (hnumbers entries).imp fun hlt a ha b hb => ?_
    obtain ⟨p, -, rfl⟩ := List.mem_map.1 ha
    obtain ⟨q, -, rfl⟩ := List.mem_map.1 hb
    exact PostingPosition.lt_iff.2 (.inl hlt)

/-! ## Statements -/

namespace Tables

theorem statementLines_cons_eq_ok {b : Balance P} {r : PostingRow H P} {rows : List (PostingRow H P)}
    {lines : List (StatementLine P)} (hr : r.postingIndex < 2 ^ 16) : statementLines b (r :: rows) = .ok lines ↔
      ∃ running rest, b.add r.posting.direction r.posting.amount = .ok running ∧ statementLines running rows = .ok rest ∧
        lines = ⟨r.index, ⟨r.entry.id, r.postingIndex⟩, r.entry.bookingDate, r.posting.direction, r.posting.amount, running,
          r.entry.kind⟩ :: rest := by
  simp only [statementLines, bind_eq_ok, if_pos hr]
  constructor
  · intro ⟨running, hadd, rest, hrest, h⟩
    cases h
    exact ⟨running, rest, hadd, hrest, rfl⟩
  · intro ⟨running, rest, hadd, hrest, h⟩
    exact ⟨running, hadd, rest, hrest, by rw [h]⟩

theorem map_linePosition {rows : List (PostingRow H P)} (hshort : ∀ r ∈ rows, r.postingIndex < 2 ^ 16) {b : Balance P}
    {lines : List (StatementLine P)} (h : statementLines b rows = .ok lines) :
    lines.map linePosition = rows.map PostingRow.position := by
  induction rows generalizing b lines with
  | nil =>
    cases h
    rfl
  | cons r rows ih =>
    obtain ⟨running, rest, -, hrest, rfl⟩ := (statementLines_cons_eq_ok (hshort r List.mem_cons_self)).1 h
    rw [List.map_cons, List.map_cons, ih (fun x hx => hshort x (List.mem_cons_of_mem _ hx)) hrest]
    rfl

/-- A statement in two parts: the second opens with the sums of the first. -/
theorem statementLines_append {key : BalanceKey} {xs ys : List (PostingRow H P)}
    (hxs : ∀ r ∈ xs, r.posting.key = key ∧ r.postingIndex < 2 ^ 16) {b : Balance P} {lines : List (StatementLine P)}
    (h : statementLines b (xs ++ ys) = .ok lines) : ∃ mid : Balance P,
      (∀ d, mid.side d = b.side d + gross d key (xs.map (·.posting))) ∧
      statementLines b xs = .ok (lines.take xs.length) ∧ statementLines mid ys = .ok (lines.drop xs.length) := by
  induction xs generalizing b lines with
  | nil => exact ⟨b, fun d => by simp [gross], rfl, h⟩
  | cons r xs ih =>
    obtain ⟨hkey, hr⟩ := hxs r List.mem_cons_self
    obtain ⟨running, rest, hadd, hrest, rfl⟩ := (statementLines_cons_eq_ok hr).1 h
    obtain ⟨mid, hmid, hfront, hback⟩ := ih (fun x hx => hxs x (List.mem_cons_of_mem _ hx)) hrest
    refine ⟨mid, fun d => ?_, (statementLines_cons_eq_ok hr).2 ⟨running, _, hadd, hfront, rfl⟩, hback⟩
    rw [hmid, Balance.side_add hadd, List.map_cons, gross_cons]
    simp only [hkey, true_and]
    omega

end Tables

section
variable [Blake3 H] {j : Journal H P}

/-- The entry and the posting of a row, at its site. -/
theorem resolveEntry_rowsOn {key : BalanceKey} {r : PostingRow H P} (hr : r ∈ rowsOn j.entries key) :
    j.resolveEntry ⟨r.index, r.postingIndex⟩ = some (r.entry, r.posting) := by
  obtain ⟨he, hp, -⟩ := mem_rowsOn.1 hr
  simp [Journal.resolveEntry, Journal.at, he, hp]

theorem short_rowsOn (h : j.Kept) {key : BalanceKey} : ∀ r ∈ rowsOn j.entries key, r.postingIndex < 2 ^ 16 := by
  intro r hr
  obtain ⟨he, hp, -⟩ := mem_rowsOn.1 hr
  obtain ⟨hlt, -⟩ := List.getElem?_eq_some_iff.1 hp
  exact hlt.trans_le (h.fromSeal r.entry (List.mem_of_getElem? he)).postable.2

/-- The statement of a journal is made from its rows. -/
theorem statement_eq (h : j.Kept) (key : BalanceKey) :
    j.statement key = Tables.statementLines .zero (rowsOn j.entries key) := by
  have hsites : Journal.sitesOf j.entries key = (rowsOn j.entries key).map fun r => ⟨r.index, r.postingIndex⟩ := by
    unfold Journal.sitesOf rowsOn
    rw [List.map_flatMap]
    refine List.flatMap_congr fun x _ => ?_
    rw [List.map_map]
    rfl
  have hlines : ∀ {rows : List (PostingRow H P)}, (∀ r ∈ rows, r ∈ rowsOn j.entries key) → ∀ b : Balance P,
      j.statementLines b (rows.map fun r => ⟨r.index, r.postingIndex⟩) = Tables.statementLines b rows := by
    intro rows hrows
    induction rows with
    | nil => exact fun _ => rfl
    | cons r rows ih =>
      intro b
      have hr := hrows r List.mem_cons_self
      have hindex : r.postingIndex < 2 ^ 16 := short_rowsOn h r hr
      simp only [List.map_cons, Journal.statementLines, resolveEntry_rowsOn hr, Tables.statementLines,
        ih fun x hx => hrows x (List.mem_cons_of_mem _ hx), if_pos hindex]
  rw [Journal.statement, h.sited.getD, hsites]
  exact hlines (fun _ hr => hr) _

end

/-! ## The rows of the tables -/

namespace Tables

/-- The sequenced rows of a key are those of the log. -/
theorem postingRows_eq [Blake3 H] {t : Tables H P} {log : List (Logged H P)} (h : LogOf t.entries log) (key : BalanceKey) :
    t.postingRows key = rowsOn (log.map (·.entry)) key := by
  have hordered : t.sequencedRows.map (fun x => (x.1, x.2.toLogged)) = log.zipIdx.map fun x => (x.2, x.1) := by
    have hmap : (t.entries.filterMap fun r => r.placed.map fun p => (p.1, r)).map (fun x => (x.1, x.2.toLogged)) =
        t.entries.filterMap fun r => r.placed.map fun p => (p.1, r.toLogged) := by
      rw [List.map_filterMap]
      refine List.filterMap_congr fun r _ => ?_
      cases r.placed <;> rfl
    have hsorted := ordered_eq h
    rw [← hmap] at hsorted
    have hsort := List.map_insertionSort (fun a b : Nat × EntryRow H P => a.1 ≤ b.1)
      (fun a b : Nat × Logged H P => a.1 ≤ b.1) (fun x => (x.1, x.2.toLogged))
      (t.entries.filterMap fun r => r.placed.map fun p => (p.1, r)) fun _ _ _ _ => Iff.rfl
    rw [sequencedRows, hsort, hsorted, numbered, List.map_map]
    rfl
  have hrows : t.postingRows key = (t.sequencedRows.map fun x => (x.1, x.2.toLogged)).flatMap fun x =>
      (x.2.entry.postings.zipIdx.filter fun p => p.1.key = key).map fun p => ⟨x.1, p.2, x.2.entry, p.1⟩ := by
    rw [List.flatMap_map]
    rfl
  rw [hrows, hordered, List.flatMap_map, rowsOn, List.zipIdx_map, List.flatMap_map]
  rfl

variable {rows : List (PostingRow H P)}

theorem shown_before (hrows : rows.Pairwise fun a b => a.position < b.position) (B : Backend) (cursor : PostingCursor) :
    rows.Pairwise fun a b => shown B cursor b = true → shown B cursor a = true := by
  refine hrows.imp fun {a b} hlt hb => ?_
  have hlt : a.index < b.index ∨ a.index = b.index ∧ a.postingIndex < b.postingIndex := PostingPosition.lt_iff.1 hlt
  obtain ⟨p, hp, hb⟩ := (Option.any_eq_true _ _).1 hb
  refine (Option.any_eq_true _ _).2 ⟨p, hp, ?_⟩
  rw [decide_eq_true_eq] at hb ⊢
  omega

theorem not_shown_iff {r : PostingRow H P} (hr : r.index < 2 ^ 63 - 1) {p : PostingPosition} {limit : Nat} :
    shown .sqlite ⟨some p, limit⟩ r = false ↔ p < r.position := by
  have hposition : p < r.position ↔ p.index < r.index ∨ p.index = r.index ∧ p.posting < r.postingIndex :=
    PostingPosition.lt_iff
  have hbound : bigint p.index = min p.index (2 ^ 63 - 1) := rfl
  have hposting : Backend.postingIndex .sqlite p.posting = p.posting := rfl
  simp only [shown, Option.any_some, decide_eq_false_iff_not, hposition, hposting]
  omega

/-- The rows before a page and those from it on. -/
theorem rows_at (hrows : rows.Pairwise fun a b => a.position < b.position) (hroom : ∀ r ∈ rows, r.index < 2 ^ 63 - 1)
    (cursor : PostingCursor) :
    rows.filter (shown .sqlite cursor) = rows.take (startAfter PostingRow.position rows cursor.after) ∧
    (rows.filter fun r => !shown .sqlite cursor r) = rows.drop (startAfter PostingRow.position rows cursor.after) := by
  have hback : (rows.filter fun r => !shown .sqlite cursor r) =
      rows.drop (startAfter PostingRow.position rows cursor.after) := by
    rw [drop_startAfter hrows]
    obtain ⟨_ | p, limit⟩ := cursor
    · exact List.filter_eq_self.2 fun r _ => rfl
    · refine List.filter_congr fun r hr => ?_
      rw [Bool.eq_iff_iff, Bool.not_eq_true', decide_eq_true_eq]
      exact not_shown_iff (hroom r hr)
  refine ⟨?_, hback⟩
  have hdown := shown_before hrows .sqlite cursor
  have hsplit : rows.filter (shown .sqlite cursor) ++ (rows.filter fun r => !shown .sqlite cursor r) = rows := by
    rw [← takeWhile_eq_filter hdown, ← dropWhile_eq_filter hdown, List.takeWhile_append_dropWhile]
  refine List.append_cancel_right (hsplit.trans ?_)
  rw [hback, List.take_append_drop]

/-- **A page of a statement** is the same from the rows as from the whole list. -/
theorem statement_page {t : Tables H P} {key : BalanceKey} (hrows : t.postingRows key = rows)
    (hsorted : rows.Pairwise fun a b => a.position < b.position) (hroom : ∀ r ∈ rows, r.index < 2 ^ 63 - 1)
    (hkey : ∀ r ∈ rows, r.posting.key = key ∧ r.postingIndex < 2 ^ 16) {lines : List (StatementLine P)}
    (h : statementLines .zero rows = .ok lines) (cursor : PostingCursor) : t.statement .sqlite key cursor =
      .ok ⟨(MemoryStore.pageFrom linePosition lines cursor).1, (MemoryStore.pageFrom linePosition lines cursor).2⟩ := by
  obtain ⟨hfront, hback⟩ := rows_at hsorted hroom cursor
  have hpositions := map_linePosition (fun r hr => (hkey r hr).2) h
  obtain ⟨n, hn⟩ : ∃ n, n = startAfter PostingRow.position rows cursor.after := ⟨_, rfl⟩
  have hstart : startAfter linePosition lines cursor.after = n := (startAfter_congr hpositions _).trans hn.symm
  have hlength : lines.length = rows.length := by simpa using congrArg List.length hpositions
  have hle : n ≤ rows.length := hn ▸ startAfter_le _
  rw [← hn] at hfront hback
  rw [← List.take_append_drop n rows] at h
  obtain ⟨mid, hmid, -, hrest⟩ := statementLines_append (fun r hr => hkey r (List.mem_of_mem_take hr)) h
  rw [List.length_take, min_eq_left hle] at hrest
  -- the page is the beginning of what is left
  have hpage : statementLines mid ((rows.drop n).take cursor.effectiveLimit) =
      .ok ((lines.drop n).take cursor.effectiveLimit) := by
    rw [← List.take_append_drop cursor.effectiveLimit (rows.drop n)] at hrest
    obtain ⟨-, -, htake, -⟩ := statementLines_append
      (fun r hr => hkey r (List.mem_of_mem_drop (List.mem_of_mem_take hr))) hrest
    rw [htake, List.length_take, List.length_drop, ← hlength, ← List.length_drop, ← List.take_eq_take_min]
  have hopening : opening .sqlite rows key cursor = .ok mid := by
    have hside : ∀ d, mid.side d = gross d key ((rows.filter (shown .sqlite cursor)).map (·.posting)) := fun d => by
      rw [hmid, Balance.side_zero, zero_add, hfront]
    unfold opening
    split
    · exact sumRow_eq_ok.2 hside
    · rename_i hafter
      have hnone : cursor.after = none := by simpa using hafter
      have hnil : rows.filter (shown .sqlite cursor) = [] := List.filter_eq_nil_iff.2 fun r _ => by simp [shown, hnone]
      refine congrArg _ (Balance.ext_side fun d => ?_)
      rw [hside, hnil, Balance.side_zero]
      rfl
  have hstored : Backend.sqlite.storedKey key = key := rfl
  have hmore : n + ((lines.drop n).take cursor.effectiveLimit).length < lines.length ↔
      cursor.effectiveLimit < (rows.drop n).length := by
    rw [List.length_take, List.length_drop, List.length_drop, hlength]
    omega
  unfold statement
  simp only [hstored, hrows, hopening, hback, hpage, Except.mapError, bind, Except.bind]
  unfold MemoryStore.pageFrom
  simp only [hstart, hmore]
  rfl

end Tables

/-! ## Open items -/

/-- The reference to the posting of a row. -/
def PostingRow.ref (r : PostingRow H P) : PostingRef := ⟨r.entry.id, r.postingIndex⟩

/-- The candidates of a journal are its rows. -/
theorem candidates_eq [Blake3 H] {j : Journal H P} (h : j.Kept) (key : BalanceKey) :
    j.candidates key = (rowsOn j.entries key).map fun r => (r.position, r.ref) := by
  have hat : ∀ x ∈ j.entries.zipIdx, j.at x.2 = some x.1 := fun x hx => List.mem_zipIdx_iff_getElem?.1 hx
  unfold Journal.candidates rowsOn
  rw [h.sited.getD, Journal.sitesOf, List.filterMap_flatMap, List.map_flatMap]
  refine List.flatMap_congr fun x hx => ?_
  rw [List.filterMap_map, List.map_map, ← List.filterMap_eq_map]
  refine List.filterMap_congr fun p _ => ?_
  simp [hat x hx, PostingRow.position, PostingRow.ref]

/-- What the lists of open items are made from: postings that are found, with no more applied
than there is, and no more than the rows say. -/
structure Sums (register : ClearingRegister P) (lookup : PostingRef → Option (Posting P)) (ct : ClearingTables P)
    (r : PostingRow H P) : Prop where
  lookup : lookup r.ref = some r.posting
  short : r.postingIndex < 2 ^ 16
  nonneg : 0 ≤ (register.appliedTo r.ref).minor
  le : (register.appliedTo r.ref).minor ≤ r.posting.amount.minor
  applied : ct.appliedMinor r.ref = (register.appliedTo r.ref).minor

section
variable {register : ClearingRegister P} {lookup : PostingRef → Option (Posting P)} {ct : ClearingTables P}
  {rows : List (PostingRow H P)}

/-- The rows of the view make the list of the register. -/
theorem openItemsAmong_eq (h : ∀ r ∈ rows, Sums register lookup ct r) : ∃ items,
    register.openItemsAmong lookup (rows.map fun r => (r.position, r.ref)) = .ok items ∧
    (rows.filter fun r => 0 < r.posting.amount.minor - ct.appliedMinor r.ref).mapM (Tables.openItem ct) = .ok items := by
  induction rows with
  | nil => exact ⟨[], rfl, rfl⟩
  | cons r rows ih =>
    obtain ⟨items, hitems, hrows⟩ := ih fun x hx => h x (List.mem_cons_of_mem _ hx)
    obtain ⟨hlookup, hshort, hnonneg, hle, happlied⟩ := h r List.mem_cons_self
    have hfits : FitsI64 (r.posting.amount.minor - (register.appliedTo r.ref).minor) := by
      have hhigh := r.posting.amount.fits.2
      have hmin : i64Min ≤ 0 := by decide
      exact ⟨by omega, by omega⟩
    have hres : r.posting.amount.checkedSub (register.appliedTo r.ref) = .ok ⟨_, hfits⟩ := Amount.checkedSub_eq_ok.2 rfl
    rw [List.map_cons]
    by_cases hpos : 0 < r.posting.amount.minor - (register.appliedTo r.ref).minor
    · have hpositive : (⟨_, hfits⟩ : Amount P).isPositive = true := decide_eq_true hpos
      let item : OpenItem P :=
        ⟨r.position, r.ref, r.posting.direction, r.posting.amount, register.appliedTo r.ref, ⟨_, hfits⟩⟩
      have hitem : Tables.openItem ct r = .ok item := by
        have hsum : Amount.checked (ct.appliedMinor r.ref) = .ok (register.appliedTo r.ref) :=
          Amount.checked_eq_ok.2 happlied.symm
        have hleft : Amount.checked (r.posting.amount.minor - ct.appliedMinor r.ref) = .ok (⟨_, hfits⟩ : Amount P) :=
          Amount.checked_eq_ok.2 (by rw [happlied])
        refine bind_eq_ok.2 ⟨_, hsum, bind_eq_ok.2 ⟨_, hleft, ?_⟩⟩
        simp only [if_pos hshort]
        rfl
      refine ⟨item :: items, ?_, ?_⟩
      · simp only [ClearingRegister.openItemsAmong, hlookup, hres, Except.mapError, bind, Except.bind, hitems, hpositive,
          if_true]
        rfl
      · rw [List.filter_cons_of_pos (by rw [happlied]; exact decide_eq_true hpos), List.mapM_cons, hitem, hrows]
        rfl
    · have hpositive : (⟨_, hfits⟩ : Amount P).isPositive = false := decide_eq_false hpos
      refine ⟨items, ?_, ?_⟩
      · simp only [ClearingRegister.openItemsAmong, hlookup, hres, Except.mapError, bind, Except.bind, hitems, hpositive,
          Bool.false_eq_true, if_false]
      · rw [List.filter_cons_of_neg (by rw [happlied]; simpa using hpos), hrows]

theorem map_itemPosition (hshort : ∀ r ∈ rows, r.postingIndex < 2 ^ 16) {items : List (OpenItem P)}
    (h : rows.mapM (Tables.openItem ct) = .ok items) : items.map (·.position) = rows.map PostingRow.position := by
  have hall := mapM_eq_ok.1 h
  clear h
  induction hall with
  | nil => rfl
  | @cons r item rows items hitem _ ih =>
    obtain ⟨applied, -, hrest⟩ := bind_eq_ok.1 hitem
    obtain ⟨residual, -, hrest⟩ := bind_eq_ok.1 hrest
    cases hrest
    rw [List.map_cons, List.map_cons, ih fun x hx => hshort x (List.mem_cons_of_mem _ hx)]
    simp only [if_pos (hshort r List.mem_cons_self)]
    rfl

/-- **A page of open items** is the same from the view as from the whole list. -/
theorem openItems_page {t : Tables H P} {key : BalanceKey} (hrows : t.openItemRows ct key = rows)
    (hsorted : rows.Pairwise fun a b => a.position < b.position) (hroom : ∀ r ∈ rows, r.index < 2 ^ 63 - 1)
    (hshort : ∀ r ∈ rows, r.postingIndex < 2 ^ 16) {items : List (OpenItem P)}
    (h : rows.mapM (Tables.openItem ct) = .ok items) (cursor : PostingCursor) : t.openItems .sqlite ct key cursor =
      .ok ⟨(MemoryStore.pageFrom (·.position) items cursor).1, (MemoryStore.pageFrom (·.position) items cursor).2⟩ := by
  obtain ⟨-, hback⟩ := Tables.rows_at hsorted hroom cursor
  have hpositions := map_itemPosition hshort h
  obtain ⟨n, hn⟩ : ∃ n, n = startAfter PostingRow.position rows cursor.after := ⟨_, rfl⟩
  have hstart : startAfter (·.position) items cursor.after = n := (startAfter_congr hpositions _).trans hn.symm
  have hlength : items.length = rows.length := by simpa using congrArg List.length hpositions
  rw [← hn] at hback
  have hpage : ((rows.drop n).take cursor.effectiveLimit).mapM (Tables.openItem ct) =
      .ok ((items.drop n).take cursor.effectiveLimit) :=
    mapM_eq_ok.2 (List.forall₂_take _ (List.forall₂_drop _ (mapM_eq_ok.1 h)))
  have hstored : Backend.sqlite.storedKey key = key := rfl
  have hmore : n + ((items.drop n).take cursor.effectiveLimit).length < items.length ↔
      cursor.effectiveLimit < (rows.drop n).length := by
    have hle : n ≤ rows.length := hn ▸ startAfter_le _
    rw [List.length_take, List.length_drop, List.length_drop, hlength]
    omega
  unfold Tables.openItems
  simp only [hstored, hrows, hback, hpage, Except.mapError, bind, Except.bind]
  unfold MemoryStore.pageFrom
  simp only [hstart, hmore]

end

/-! ## Whole lists -/

section
variable [Blake3 H] [DecidableEq H] {j : Journal H P}

/-- A store around a journal of sealed entries, given batches of sealed entries, holds one. -/
theorem MemoryStore.reachable_sealed {ledger : LedgerId} {j₀ : Journal H P} {ks : List (MemoryStore.Call H P)}
    (hj : (Journal.sealedOperations ledger).Reachable j₀)
    (hr : ((MemoryStore.calls ledger).restrict fun _ k => ∀ e ∈ MemoryStore.submitted k, Journal.FromSeal e).Run j₀ ks j) :
    (Journal.sealedOperations ledger).Reachable j := by
  induction hr with
  | nil => exact hj
  | @cons j j₁ _ k _ st _ ih =>
    obtain ⟨hstep, hsealed⟩ := LTS.restrict_step.1 st
    obtain rfl : j₁ = MemoryStore.after j k := hstep
    obtain ⟨o, ho, hoffered⟩ := MemoryStore.exists_operation j k
    exact ih (hj.step (LTS.restrict_step.2 ⟨ho, hoffered ▸ hsealed⟩))

omit [DecidableEq H] in
theorem sums_of_mirrors (hk : j.Kept) (hc : ClearingRegister.Consistent j.postingLookup j.clearings)
    {ct : ClearingTables P} (hm : ct.Mirrors j.clearings) (key : BalanceKey) :
    ∀ r ∈ rowsOn j.entries key, Sums j.clearings j.postingLookup ct r := by
  intro r hr
  obtain ⟨he, hp, -⟩ := mem_rowsOn.1 hr
  have hlookup : j.postingLookup r.ref = some r.posting :=
    hk.mapped.postingLookup_eq.2 ⟨r.entry, List.mem_of_getElem? he, rfl, hp⟩
  exact ⟨hlookup, short_rowsOn hk r hr, hc.applied_nonneg _, hc.bounded _ _ hlookup,
    (hm.appliedMinor_eq _).trans (hc.applied _).symm⟩

end

section
variable [Blake3 H] {j : Journal H P}

/-- The open items of a journal, and the rows of the view on tables with its clearings. -/
theorem openItems_eq (hk : j.Kept) (hc : ClearingRegister.Consistent j.postingLookup j.clearings) {ct : ClearingTables P}
    (hm : ct.Mirrors j.clearings) (key : BalanceKey) : ∃ items, j.openItems key = .ok items ∧
      ((rowsOn j.entries key).filter fun r => 0 < r.posting.amount.minor - ct.appliedMinor r.ref).mapM
        (Tables.openItem ct) = .ok items := by
  obtain ⟨items, hitems, hrows⟩ := openItemsAmong_eq (sums_of_mirrors hk hc hm key)
  refine ⟨items, ?_, hrows⟩
  rw [Journal.openItems, candidates_eq hk, hitems]
  rfl

/-- The pages of the log, from its first entry. -/
theorem page_complete (j : Journal H P) :
    Complete (fun c => (MemoryStore.page j c).map fun p => (p.records, p.next)) Cursor.withLimit .start
      (storedEntries (MemoryStore.leaves j)) := by
  have hlen : j.entries.length = (MemoryStore.leaves j).length := (List.length_map _).symm
  have hpages := pages_page (JournalError H) (MemoryStore.leaves j)
  rw [← hlen] at hpages
  exact hpages.complete Cursor.withLimit (fun _ _ => rfl) rfl

/-- The lines of a statement are in log order. -/
theorem lines_increasing (hk : j.Kept) {key : BalanceKey} {lines : List (StatementLine P)}
    (h : j.statement key = .ok lines) : lines.Pairwise fun x y => linePosition x < linePosition y := by
  rw [statement_eq hk] at h
  refine List.pairwise_map.1 ?_
  rw [Tables.map_linePosition (short_rowsOn hk) h]
  exact List.pairwise_map.2 (rowsOn_increasing _ _)

theorem items_increasing (hk : j.Kept) (hc : ClearingRegister.Consistent j.postingLookup j.clearings) {key : BalanceKey}
    {items : List (OpenItem P)} (h : j.openItems key = .ok items) :
    items.Pairwise fun x y => x.position < y.position := by
  obtain ⟨items', hitems, hrows⟩ := openItems_eq hk hc (ClearingTables.mirrors_ofRegister j.clearings) key
  obtain rfl : items' = items := Except.ok.inj (hitems.symm.trans h)
  refine List.pairwise_map.1 ?_
  rw [map_itemPosition (fun r hr => short_rowsOn hk r (List.mem_filter.1 hr).1) hrows]
  exact List.pairwise_map.2 ((rowsOn_increasing _ _).filter _)

/-- The tables hold the entries of a journal, at positions a column can hold. -/
theorem postingRows_journal {ledger : LedgerId} [DecidableEq H] {t : Tables H P} (ht : (Tables.calls .sqlite ledger).Reachable t)
    (hentries : t.log.map (·.entry) = j.entries) (key : BalanceKey) :
    t.postingRows key = rowsOn j.entries key ∧ ∀ r ∈ rowsOn j.entries key, r.index < 2 ^ 63 - 1 := by
  obtain ⟨log, hl⟩ := (Tables.logInv_inductive .sqlite ledger).reachable ht
  rw [Tables.log_eq hl.logOf] at hentries
  refine ⟨by rw [Tables.postingRows_eq hl.logOf, hentries], fun r hr => ?_⟩
  have hroom := Tables.room_of_reachable ht
  have hcount := Tables.sequencedCount_eq hl.logOf
  have hle : t.sequencedCount ≤ t.entries.length := List.length_filterMap_le _ _
  obtain ⟨hlt, -⟩ := List.getElem?_eq_some_iff.1 (mem_rowsOn.1 hr).1
  rw [← hentries, List.length_map] at hlt
  omega

variable [DecidableEq H]

/-- What paging promises of a key of a store in memory: the pages of its statement and of its
open items, followed or drained, are the lists of the journal, which are in log order. -/
structure PagedInMemory (j : Journal H P) (key : BalanceKey) (lines : List (StatementLine P)) (items : List (OpenItem P)) :
    Prop where
  statement : j.statement key = .ok lines
  openItems : j.openItems key = .ok items
  linesInOrder : lines.Pairwise fun x y => linePosition x < linePosition y
  itemsInOrder : items.Pairwise fun x y => x.position < y.position
  statementPages :
    Complete (fun c => (MemoryStore.statement j key c).map fun p => (p.lines, p.next)) PostingCursor.withLimit .start lines
  openItemPages :
    Complete (fun c => (MemoryStore.openItems j key c).map fun p => (p.items, p.next)) PostingCursor.withLimit .start items
  drained : ∀ fuel, items.length < fuel → allOpenItems (MemoryStore.openItems j) fuel key = .ok (some items)

/-- The pages of SQLite are the same, and drained they are the same list. -/
structure PagedAlike (j : Journal H P) (t : Tables H P) (ct : ClearingTables P) (key : BalanceKey)
    (items : List (OpenItem P)) : Prop where
  statement : ∀ cursor, ∃ page, MemoryStore.statement j key cursor = .ok page ∧ t.statement .sqlite key cursor = .ok page
  openItems : ∀ cursor, ∃ page, MemoryStore.openItems j key cursor = .ok page ∧ t.openItems .sqlite ct key cursor = .ok page
  drained : ∀ fuel, items.length < fuel → allOpenItems (t.openItems .sqlite ct) fuel key = .ok (some items)

/-- **Paging is complete.** In every state of a store in memory, whatever the limits of the
cursors, the pages of the log, of a statement and of open items add up to the lists of the
journal; and SQLite, with the same entries and clearings, has the same pages. -/
theorem pages_complete {ledger : LedgerId} {j₀ j : Journal H P} {ks : List (MemoryStore.Call H P)}
    (hj : (Journal.sealedOperations ledger).Reachable j₀)
    (hr : ((MemoryStore.calls ledger).restrict fun _ k => ∀ e ∈ MemoryStore.submitted k, Journal.FromSeal e).Run j₀ ks j)
    (key : BalanceKey) :
    Complete (fun c => (MemoryStore.page j c).map fun p => (p.records, p.next)) Cursor.withLimit .start
      (storedEntries (MemoryStore.leaves j)) ∧
    ∃ lines items, PagedInMemory j key lines items ∧
      ∀ (file : LedgerId) (t : Tables H P) (ct : ClearingTables P), (Tables.calls .sqlite file).Reachable t →
        t.log.map (·.entry) = j.entries → ct.Mirrors j.clearings → PagedAlike j t ct key items := by
  have hreach := MemoryStore.reachable_sealed hj hr
  have hk := Journal.kept_of_reachable hreach
  have hc := Journal.clearings_consistent hreach
  obtain ⟨lines, hlines, -⟩ := hk.statement_spec key
  obtain ⟨items, hitems, -⟩ := openItems_eq hk hc (ClearingTables.mirrors_ofRegister j.clearings) key
  have hstatement : ∀ c, MemoryStore.statement j key c =
      .ok ⟨(MemoryStore.pageFrom linePosition lines c).1, (MemoryStore.pageFrom linePosition lines c).2⟩ := fun c => by
    rw [MemoryStore.statement, hlines]
    rfl
  have hopen : ∀ c, MemoryStore.openItems j key c =
      .ok ⟨(MemoryStore.pageFrom (·.position) items c).1, (MemoryStore.pageFrom (·.position) items c).2⟩ := fun c => by
    rw [MemoryStore.openItems, hitems]
    rfl
  have hsorted := items_increasing hk hc hitems
  have hincreasing := lines_increasing hk hlines
  refine ⟨page_complete j, lines, items, ⟨hlines, hitems, hincreasing, hsorted, ?_, ?_, ?_⟩, fun file t ct ht hentries hm => ?_⟩
  · exact MemoryStore.complete_pageFrom hincreasing fun c => by rw [hstatement]; rfl
  · exact MemoryStore.complete_pageFrom hsorted fun c => by rw [hopen]; rfl
  · exact fun fuel hfuel => MemoryStore.drain_pageFrom hsorted (fun c => by rw [hopen]; rfl) hfuel
  · obtain ⟨hrows, hroom⟩ := postingRows_journal ht hentries key
    obtain ⟨items', hitems', hview⟩ := openItems_eq hk hc hm key
    obtain rfl : items' = items := Except.ok.inj (hitems'.symm.trans hitems)
    have hshort : ∀ r ∈ rowsOn j.entries key, r.postingIndex < 2 ^ 16 := short_rowsOn hk
    have hlog := rowsOn_increasing j.entries key
    have hsqlOpen : ∀ c, t.openItems .sqlite ct key c =
        .ok ⟨(MemoryStore.pageFrom (·.position) items' c).1, (MemoryStore.pageFrom (·.position) items' c).2⟩ :=
      openItems_page (by rw [Tables.openItemRows, hrows]; rfl) (hlog.filter _)
        (fun r hr => hroom r (List.mem_filter.1 hr).1) (fun r hr => hshort r (List.mem_filter.1 hr).1) hview
    rw [statement_eq hk] at hlines
    have hsql := Tables.statement_page hrows hlog hroom (fun r hr => ⟨(mem_rowsOn.1 hr).2.2, hshort r hr⟩) hlines
    refine ⟨fun c => ⟨_, hstatement c, hsql c⟩, fun c => ⟨_, hopen c, hsqlOpen c⟩, fun fuel hfuel => ?_⟩
    exact MemoryStore.drain_pageFrom hsorted (fun c => by rw [hsqlOpen]; rfl) hfuel

end

/-! ## The refund of March -/

/-- The sale of March and its refund, as rows. -/
def refundFiled : Tables Preimage cents := (Tables.marchCalls [saleOfMarch, Journal.refund]).foldl (Tables.after .sqlite) (.empty books)

set_option maxRecDepth 10000 in
theorem reachable_refundFiled : (Tables.calls .sqlite books).Reachable refundFiled := by
  have hshort : ∀ draft ∈ [saleOfMarch, Journal.refund], ∀ e ∈ [draft.withState .balanced], e.postings.length < 2 ^ 64 := by
    decide
  refine ⟨_, Tables.marchCalls [saleOfMarch, Journal.refund], rfl, ?_⟩
  exact .cons (Tables.step_after trivial (by decide)) <| .cons (Tables.step_after trivial (by decide)) <|
    .cons (Tables.step_after (hshort _ List.mem_cons_self) (by decide)) <|
    .cons (Tables.step_after (hshort _ (List.mem_cons_of_mem _ List.mem_cons_self)) (by decide)) (.nil _)

set_option maxRecDepth 20000 in
/-- Not vacuous: two lines and, after the clearing, one open item, with either store. -/
theorem partRefunded_paged : ∃ lines items, lines.length = 2 ∧ items.length = 1 ∧
    PagedInMemory Journal.partRefunded ⟨cashId, .eur, .settled⟩ lines items ∧
    PagedAlike Journal.partRefunded refundFiled (.ofRegister Journal.partRefunded.clearings) ⟨cashId, .eur, .settled⟩ items := by
  obtain ⟨-, lines, items, hpaged, halike⟩ := pages_complete
    (⟨_, _, rfl, Journal.run_sealedCalls books _ _⟩ : (Journal.sealedOperations books).Reachable Journal.partRefunded)
    (.nil _) ⟨cashId, .eur, .settled⟩
  have hlines : (Journal.partRefunded.statement ⟨cashId, .eur, .settled⟩).toOption.map List.length = some 2 := by decide
  have hitems : (Journal.partRefunded.openItems ⟨cashId, .eur, .settled⟩).toOption.map List.length = some 1 := by decide
  rw [hpaged.statement] at hlines
  rw [hpaged.openItems] at hitems
  have hentries : refundFiled.log.map (·.entry) = Journal.partRefunded.entries := by decide
  exact ⟨lines, items, Option.some.inj hlines, Option.some.inj hitems, hpaged,
    halike _ _ _ reachable_refundFiled hentries (ClearingTables.mirrors_ofRegister _)⟩

end DoubleEntry.L4
