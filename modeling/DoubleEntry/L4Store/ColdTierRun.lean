import DoubleEntry.L4Store.ColdTier
import DoubleEntry.L4Store.Retries

/-!
# Runs of compactions

One call after another, over a store that only grows. The rows of the table are the
postings of the log up to `archived_through`, in order, and the accumulator is the
one over its leaves (`Archived`).

**The law of a call (`Compacted`).** `archived_through` does not go back, and the table
is the archive of the log again. A call that succeeds verified the root of its seal
over exactly the entries the seal covers, whatever the pages saw of a log that grows
meanwhile: a root determines its leaves when hashes do not collide. A call that fails
leaves the rows, the listed files and the snapshot as they were.

**Where it holds.** A data file is named after the period of the seal. A call that
writes for a period with a file in the table overwrites that file, and its commit is
refused (`second_seal_overwrites`).

**Assumptions.** `Collisionless`: hashes are injective. `SealsLeaves`: the head of a
seal is that of some list, and its size a `u64`. `Grows`: pages show the log as it grows.

**Results.**
* `collect_spec`: what is collected is a segment of the log.
* `archive_is_log`: in every run whose calls write for fresh periods only (`FreshFile`)
  the table is the archive of the log and every such call obeys the law; a call that
  is not such a call breaks it.
* `compact_returns`: a call returns.
-/
namespace DoubleEntry.L4

open DoubleEntry.Core DoubleEntry.L1 DoubleEntry.L2 DoubleEntry.L3

/-! ## Segments of the log -/

section
variable {H : Type} {P : Scale} {log log' : List (Logged H P)}

/-- The records from position `a` to `b`. -/
def segment (log : List (Logged H P)) (a b : Nat) : List (StoredEntry H P) := ((storedEntries log).take b).drop a

@[simp] theorem length_storedEntries (log : List (Logged H P)) : (storedEntries log).length = log.length := by
  simp [storedEntries]

@[simp] theorem length_segment (log : List (Logged H P)) (a b : Nat) : (segment log a b).length = min b log.length - a := by
  simp [segment]

theorem segment_append {a b c : Nat} (hab : a ≤ b) (hbc : b ≤ c) :
    segment log a b ++ segment log b c = segment log a c := by
  unfold segment
  generalize storedEntries log = records
  have htake : records.take b = (records.take c).take b := by rw [List.take_take, min_eq_left hbc]
  rw [htake]
  generalize records.take c = records
  by_cases hlen : b ≤ records.length
  · have hle : a ≤ (records.take b).length := by
      rw [List.length_take]
      omega
    have hsplit : (records.take b ++ records.drop b).drop a = (records.take b).drop a ++ records.drop b :=
      List.drop_append_of_le_length hle
    rw [List.take_append_drop] at hsplit
    exact hsplit.symm
  · have hpast : records.drop b = [] := List.drop_eq_nil_of_le (by omega)
    rw [List.take_of_length_le (by omega), hpast, List.append_nil]

theorem take_segment {a b c : Nat} (h : c ≤ b) : (segment log a b).take (c - a) = segment log a c := by
  unfold segment
  rw [List.drop_take, List.take_take, List.drop_take, min_eq_left (by omega)]

/-- Records of a prefix are records of the whole. -/
theorem segment_of_later (h : log <+: log') {a b : Nat} (hb : b ≤ log.length) : segment log' a b = segment log a b := by
  obtain ⟨more, rfl⟩ := h
  unfold segment storedEntries
  rw [List.zipIdx_append, List.map_append, List.take_append_of_le_length (by simpa using hb)]

theorem indices_segment (log : List (Logged H P)) (a b : Nat) :
    (segment log a b).map (·.index) = (List.range' a (segment log a b).length).map some := by
  have hall : (storedEntries log).map (·.index) = (List.range' 0 log.length).map some := by
    rw [storedEntries, List.map_map, ← List.zipIdx_map_snd 0 log, List.map_map]
    rfl
  rw [length_segment, segment, List.map_drop, List.map_take, hall, ← List.map_take, ← List.map_drop]
  congr 1
  refine List.ext_getElem (by simp) fun i h₁ h₂ => ?_
  simp

theorem hashes_segment (log : List (Logged H P)) (a b : Nat) :
    (segment log a b).map (·.contentHash) = ((hashes log).take b).drop a := by
  have hall : (storedEntries log).map (·.contentHash) = hashes log := by
    rw [storedEntries, List.map_map, hashes]
    conv_rhs => rw [← List.zipIdx_map_fst 0 log]
    rw [List.map_map]
    rfl
  rw [segment, List.map_drop, List.map_take, hall]

end

/-! ## Collecting -/

section
variable {H : Type} {P : Scale}

/-- The views of a call, from a log to the log when the call is over. -/
inductive Grows : List (Logged H P) → List (PageView H P) → List (Logged H P) → Prop
  | nil {log log' : List (Logged H P)} (later : log <+: log') : Grows log [] log'
  | failed {log log' : List (Logged H P)} {views : List (PageView H P)} (rest : Grows log views log') :
      Grows log (none :: views) log'
  | seen {log read counted log' : List (Logged H P)} {views : List (PageView H P)} (later : log <+: read)
      (counts : read <+: counted) (rest : Grows counted views log') : Grows log (some (read, counted) :: views) log'

theorem Grows.later {log log' : List (Logged H P)} {views : List (PageView H P)} (h : Grows log views log') :
    log <+: log' := by
  induction h with
  | nil later => exact later
  | failed rest ih => exact ih
  | seen later counts rest ih => exact later.trans (counts.trans ih)

theorem takeBelow_eq {stop : Nat} {records : List (StoredEntry H P)} : ∀ {first : Nat}, first ≤ stop →
    records.map (·.index) = (List.range' first records.length).map some →
    takeBelow stop records = .ok (records.take (stop - first), decide (stop < first + records.length)) := by
  induction records with
  | nil =>
    intro first hle _
    simp [takeBelow, Nat.not_lt.2 hle]
  | cons record records ih =>
    intro first hle h
    rw [List.length_cons, List.range'_succ, List.map_cons, List.map_cons, List.cons.injEq] at h
    unfold takeBelow
    simp only [h.1, List.length_cons]
    by_cases hstop : stop ≤ first
    · obtain rfl : first = stop := by omega
      simp
    · have hrest := ih (Nat.succ_le_of_lt (by omega)) h.2
      have htake : stop - first = stop - (first + 1) + 1 := by omega
      have hcount : first + 1 + records.length = first + (records.length + 1) := by omega
      rw [if_neg hstop, hrest, htake, hcount]
      rfl

/-- A page is a segment of the log, and the next one resumes behind it. -/
theorem page_spec {read log : List (Logged H P)} (h : read <+: log) (total : Nat) (cursor : Cursor)
    (hfirst : cursor.first ≤ read.length) : ∃ n, cursor.first + n ≤ read.length ∧
      (page read total cursor).records = segment log cursor.first (cursor.first + n) ∧
      ∀ next, (page read total cursor).next = some next → next.first = cursor.first + n := by
  obtain ⟨n, hn⟩ : ∃ n, n = min cursor.effectiveLimit (read.length - cursor.first) := ⟨_, rfl⟩
  have hrecords : (page read total cursor).records = segment log cursor.first (cursor.first + n) := by
    rw [segment_of_later h (by omega), segment, List.drop_take]
    refine (List.take_eq_take_iff).2 ?_
    rw [List.length_drop, length_storedEntries]
    omega
  refine ⟨n, by omega, hrecords, ?_⟩
  intro next hnext
  obtain ⟨index, hindex, rfl⟩ := Option.map_eq_some_iff.1 hnext
  obtain ⟨hlast, -⟩ := Option.filter_eq_some_iff.1 hindex
  obtain ⟨record, hrecord, hstored⟩ := Option.bind_eq_some_iff.1 hlast
  -- the last of consecutive positions
  have hlen := congrArg List.length hrecords
  have hmap := congrArg List.getLast? (indices_segment log cursor.first (cursor.first + n))
  rw [← hrecords, List.getLast?_map, show (page read total cursor).records.getLast? = some record from hrecord,
    List.getLast?_map, List.getLast?_range'] at hmap
  rw [length_segment] at hlen
  have hle := h.length_le
  split at hmap
  · cases hmap
  · simp only [Option.map_some, Option.some.injEq, hstored] at hmap
    show index + 1 = cursor.first + n
    omega

/-- What one page comes to: the loop is over, with a segment up to its bound or to the end of
the log it saw, or it has a segment up to where the next page starts, and goes on. -/
theorem collectLoop_page {stop : Nat} {read counted log' : List (Logged H P)} (hread : read <+: log')
    (views : List (PageView H P)) {cursor : Cursor} (hfirst : cursor.first ≤ read.length) (hstop : cursor.first ≤ stop) :
    (∃ reached, cursor.first ≤ reached ∧ reached ≤ stop ∧ reached ≤ log'.length ∧
      collectLoop stop (some (read, counted) :: views) cursor = some (.ok (segment log' cursor.first reached))) ∨
    ∃ next : Cursor, cursor.first < next.first ∧ next.first ≤ stop ∧ next.first ≤ read.length ∧
      collectLoop stop (some (read, counted) :: views) cursor = (collectLoop stop views next).map fun rest =>
        rest.map (segment log' cursor.first next.first ++ ·) := by
  have hle := hread.length_le
  obtain ⟨n, hn, hrecords, hnext⟩ := page_spec hread counted.length cursor hfirst
  have hlen : (segment log' cursor.first (cursor.first + n)).length = n := by
    rw [length_segment]
    omega
  obtain ⟨result, hresult⟩ : ∃ result, result = collectLoop stop (some (read, counted) :: views) cursor := ⟨_, rfl⟩
  rw [← hresult]
  unfold collectLoop at hresult
  simp only [hrecords] at hresult
  split at hresult
  · exact .inl ⟨cursor.first, le_rfl, hstop, by omega, by simpa [segment] using hresult⟩
  · rename_i hsome
    have hpos : n ≠ 0 := fun hzero => hsome (by rw [List.isEmpty_iff, ← List.length_eq_zero_iff, hlen, hzero])
    rw [takeBelow_eq hstop (indices_segment log' _ _), hlen] at hresult
    by_cases hdone : stop < cursor.first + n
    · simp only [hdone, decide_true, take_segment hdone.le] at hresult
      exact .inl ⟨stop, hstop, le_rfl, by omega, hresult⟩
    · have hall : (segment log' cursor.first (cursor.first + n)).take (stop - cursor.first) =
          segment log' cursor.first (cursor.first + n) := List.take_of_length_le (by omega)
      simp only [hdone, decide_false, hall] at hresult
      split at hresult
      · exact .inl ⟨cursor.first + n, by omega, by omega, by omega, hresult⟩
      · rename_i next hresume
        have hfrom := hnext next hresume
        rw [← hfrom] at hresult
        exact .inr ⟨next, by omega, by omega, by omega, hresult⟩

/-- **What is collected is a segment** from where the call resumes, up to its bound or to
the end of a log that was seen. -/
theorem collectLoop_spec {stop : Nat} {views : List (PageView H P)} : ∀ {log log' : List (Logged H P)} {cursor : Cursor}
    {out : List (StoredEntry H P)}, Grows log views log' → cursor.first ≤ log.length → cursor.first ≤ stop →
    collectLoop stop views cursor = some (.ok out) →
    ∃ reached, cursor.first ≤ reached ∧ reached ≤ stop ∧ reached ≤ log'.length ∧
      out = segment log' cursor.first reached := by
  induction views with
  | nil =>
    intro log log' cursor out _ _ _ h
    cases h
  | cons view views ih =>
    intro log log' cursor out hgrows hfirst hstop h
    cases hgrows with
    | failed rest => cases h
    | @seen _ read counted _ _ later counts rest =>
      have hread : read <+: log' := counts.trans rest.later
      rcases collectLoop_page hread views (hfirst.trans later.length_le) hstop with
        ⟨reached, hge, hle, hlog, hover⟩ | ⟨next, hgt, hle, hseen, hmore⟩
      · rw [hover] at h
        cases h
        exact ⟨reached, hge, hle, hlog, rfl⟩
      · rw [hmore] at h
        obtain ⟨r, hr, h⟩ := Option.map_eq_some_iff.1 h
        obtain ⟨more, hmore, rfl⟩ := map_eq_ok.1 h
        subst hmore
        obtain ⟨reached, hge, hle', hlog, rfl⟩ := ih rest (hseen.trans counts.length_le) hle hr
        exact ⟨reached, by omega, hle', hlog, segment_append hgt.le hge⟩

/-- A page moves on by one record at least, so the pages are over. -/
theorem collectLoop_returns {stop : Nat} {views : List (PageView H P)} : ∀ {log log' : List (Logged H P)}
    {cursor : Cursor}, Grows log views log' → cursor.first ≤ log.length → cursor.first ≤ stop →
    stop - cursor.first < views.length → (collectLoop stop views cursor).isSome := by
  induction views with
  | nil =>
    intro log log' cursor _ _ _ h
    cases h
  | cons view views ih =>
    intro log log' cursor hgrows hfirst hstop h
    cases hgrows with
    | failed rest => rfl
    | @seen _ read counted _ _ later counts rest =>
      have hread : read <+: log' := counts.trans rest.later
      rcases collectLoop_page hread views (hfirst.trans later.length_le) hstop with
        ⟨reached, -, -, -, hover⟩ | ⟨next, hgt, hle, hseen, hmore⟩
      · rw [hover]
        rfl
      · rw [hmore, Option.isSome_map]
        rw [List.length_cons] at h
        exact ih rest (hseen.trans counts.length_le) hle (by omega)

theorem first_resume (start : Nat) :
    (if start = 0 then Cursor.start else ⟨some (start - 1), defaultPageSize⟩ : Cursor).first = start := by
  split
  · rename_i hzero
    rw [hzero]
    rfl
  · show start - 1 + 1 = start
    omega

theorem collect_spec {start stop : Nat} {views : List (PageView H P)} {log log' : List (Logged H P)}
    {out : List (StoredEntry H P)} (hgrows : Grows log views log') (hstart : start ≤ log.length) (hstop : start ≤ stop)
    (h : collect start stop views = some (.ok out)) :
    ∃ reached, start ≤ reached ∧ reached ≤ stop ∧ reached ≤ log'.length ∧ out = segment log' start reached := by
  have hlater := hgrows.later.length_le
  unfold collect at h
  split at h
  · cases h
    exact ⟨start, le_rfl, hstop, by omega, by simp [segment]⟩
  · have hfirst := first_resume start
    have hspec := collectLoop_spec hgrows (by omega) (by omega) h
    rwa [hfirst] at hspec

end

/-! ## Rows of a segment -/

section
variable {H : Type} {P : Scale}

/-- The postings of the log up to `through`. -/
def postingsThrough (log : List (Logged H P)) (through : Nat) : List (ArchivedPosting H P) :=
  (log.zipIdx.take through).flatMap fun x => archivedPostings x.2 x.1

/-- The postings of a record. -/
def recordRows (record : StoredEntry H P) : List (ArchivedPosting H P) :=
  record.index.elim [] fun index => archivedPostings index record.toLogged

theorem postingsThrough_eq (log : List (Logged H P)) (through : Nat) :
    postingsThrough log through = (segment log 0 through).flatMap recordRows := by
  rw [postingsThrough, segment, storedEntries, List.drop_zero, ← List.map_take, List.flatMap_map]
  rfl

theorem postingsThrough_of_later {log log' : List (Logged H P)} (h : log <+: log') {through : Nat}
    (hle : through ≤ log.length) : postingsThrough log' through = postingsThrough log through := by
  rw [postingsThrough_eq, postingsThrough_eq, segment_of_later h hle]

theorem buildBatch_spec (period : PeriodId) {records : List (StoredEntry H P)} (h : ∀ r ∈ records, r.index.isSome) :
    ∃ rows, buildBatch period records = .ok rows ∧ rows.map (·.toArchivedPosting) = records.flatMap recordRows := by
  induction records with
  | nil => exact ⟨[], rfl, rfl⟩
  | cons record records ih =>
    obtain ⟨rows, hrows, hpostings⟩ := ih fun r hr => h r (List.mem_cons_of_mem _ hr)
    obtain ⟨index, hindex⟩ := Option.isSome_iff_exists.1 (h record List.mem_cons_self)
    refine ⟨((archivedPostings index record.toLogged).map fun x => ⟨x, period⟩) ++ rows, ?_, ?_⟩
    · simp only [buildBatch, hindex, hrows, Except.map]
    · simp [recordRows, hindex, hpostings, Function.comp_def]

theorem sequenced_segment (log : List (Logged H P)) (a b : Nat) : ∀ r ∈ segment log a b, r.index.isSome := by
  intro r hr
  have hmem : r.index ∈ (segment log a b).map (·.index) := List.mem_map_of_mem hr
  rw [indices_segment] at hmem
  obtain ⟨i, -, hi⟩ := List.mem_map.1 hmem
  rw [← hi]
  rfl

end

/-! ## The archive of a log -/

section
variable {H : Type} [HashBytes H] {P : Scale}

/-- The table holds the postings of the first `through` entries, and says so. -/
structure Archived (table : Archive H P) (log : List (Logged H P)) (through : Nat) : Prop where
  le : through ≤ log.length
  fits : through < 2 ^ 64
  state : archiveState table = .ok ⟨through, ((hashes log).take through).foldl MerkleAccumulator.push .new⟩
  rows : table.rows.map (·.toArchivedPosting) = postingsThrough log through

theorem archived_empty (log : List (Logged H P)) : Archived .empty log 0 :=
  ⟨Nat.zero_le _, Nat.two_pow_pos 64, rfl, rfl⟩

omit [HashBytes H] in
theorem take_hashes_of_later {log log' : List (Logged H P)} (h : log <+: log') {n : Nat} (hn : n ≤ log.length) :
    (hashes log').take n = (hashes log).take n := by
  obtain ⟨more, rfl⟩ := h
  rw [hashes, hashes, ← List.map_take, ← List.map_take, List.take_append_of_le_length hn]

theorem Archived.mono {table : Archive H P} {log log' : List (Logged H P)} {through : Nat} (h : Archived table log through)
    (hlog : log <+: log') : Archived table log' through where
  le := h.le.trans hlog.length_le
  fits := h.fits
  state := by rw [take_hashes_of_later hlog h.le, h.state]
  rows := by rw [postingsThrough_of_later hlog h.le, h.rows]

theorem Archived.write {table : Archive H P} {log : List (Logged H P)} {through : Nat} (h : Archived table log through)
    {period : PeriodId} (hfresh : period ∉ table.listed) (rows : List (ArchiveRow H P)) :
    Archived (table.write period rows) log through where
  le := h.le
  fits := h.fits
  state := h.state
  rows := by rw [Archive.rows_write hfresh, h.rows]

theorem commit_eq_some {table table' : Archive H P} {s : Seal H} {accumulator : MerkleAccumulator H} {id : Int}
    (h : table.commit s accumulator id = some table') : s.period ∉ table.listed ∧
      table' = { table with
        listed := table.listed ++ [s.period]
        current := some ⟨id, snapshotProperties s accumulator⟩ } := by
  unfold Archive.commit at h
  split at h
  · cases h
  · rename_i hlisted
    cases h
    exact ⟨fun hmem => hlisted (by simpa using hmem), rfl⟩

/-- The rows of the file come after those of the table. -/
theorem rows_commit {table table' : Archive H P} {s : Seal H} {accumulator : MerkleAccumulator H} {id : Int}
    (h : table.commit s accumulator id = some table') {rows : List (ArchiveRow H P)}
    (hfile : table.stored.get? s.period = some rows) : table'.rows = table.rows ++ rows := by
  obtain ⟨-, rfl⟩ := commit_eq_some h
  rw [Archive.rows, List.flatMap_append, List.flatMap_singleton, hfile]
  rfl

theorem archiveState_commit {table table' : Archive H P} {s : Seal H} {accumulator : MerkleAccumulator H} {leaves : List H}
    {id : Int} (h : table.commit s accumulator id = some table') (hc : accumulator.Covers leaves)
    (hsize : s.treeHead.size = leaves.length) (hfits : s.treeHead.size < 2 ^ 64) :
    archiveState table' = .ok ⟨s.treeHead.size, accumulator⟩ := by
  obtain ⟨-, rfl⟩ := commit_eq_some h
  have hdecode := decodeAccumulator_encode hc (hsize ▸ hfits)
  rw [← hsize] at hdecode
  have hthrough : (snapshotProperties s accumulator).lookup .archivedThrough = some (Nat.toDigits 10 s.treeHead.size) := rfl
  have haccumulator : (snapshotProperties s accumulator).lookup .accumulator = some (encodeAccumulator accumulator) := rfl
  unfold archiveState
  simp only [hthrough, haccumulator, parseUnsigned_toDigits hfits, hdecode]
  rfl

/-- The tree head of a seal is the head of some list. -/
structure SealsLeaves (s : Seal H) : Prop where
  head : ∃ leaves : List H, s.treeHead = ⟨leaves.length, mth leaves⟩
  fits : s.treeHead.size < 2 ^ 64

variable [DecidableEq H] {table : Archive H P} {log : List (Logged H P)} {through : Nat} {s : Seal H}

omit [DecidableEq H] in
theorem loadFor_eq_ok (h : Archived table log through) {state : ArchiveState H} (hload : loadFor table s = .ok state) :
    through ≤ s.treeHead.size ∧
      state = ⟨through, ((hashes log).take through).foldl MerkleAccumulator.push .new⟩ := by
  unfold loadFor at hload
  rw [h.state] at hload
  simp only [bind, Except.bind] at hload
  split at hload
  · cases hload
  · rename_i hlt
    cases hload
    exact ⟨by omega, rfl⟩

/-- **A delta that verifies is the one the seal covers**: a root determines its leaves. -/
theorem verifyDelta_spec (hc : Collisionless H) (hs : SealsLeaves s) {reached : Nat}
    (hge : through ≤ reached) (hle : reached ≤ log.length) {delta : Option (Delta H P)}
    (hv : verifyDelta ⟨through, ((hashes log).take through).foldl MerkleAccumulator.push .new⟩ s
      (segment log through reached) = .ok delta) :
    reached = s.treeHead.size ∧ s.treeHead.root = mth ((hashes log).take s.treeHead.size) ∧
      (delta = none → through = s.treeHead.size) ∧
      ∀ d, delta = some d → d.entries = s.treeHead.size - through ∧
        d.rows.map (·.toArchivedPosting) = (segment log through s.treeHead.size).flatMap recordRows ∧
        d.accumulator = ((hashes log).take s.treeHead.size).foldl MerkleAccumulator.push .new := by
  obtain ⟨leaves, hhead⟩ := hs.head
  have hpush : ((segment log through reached).map (·.contentHash)).foldl MerkleAccumulator.push
      (((hashes log).take through).foldl MerkleAccumulator.push .new) =
        ((hashes log).take reached).foldl MerkleAccumulator.push .new := by
    rw [hashes_segment, ← List.foldl_append]
    congr 1
    have htake : (hashes log).take through = ((hashes log).take reached).take through := by
      rw [List.take_take, min_eq_left hge]
    rw [htake, List.take_append_drop]
  have hcovers := MerkleAccumulator.covers_foldl ((hashes log).take reached)
  unfold verifyDelta at hv
  simp only [hpush] at hv
  split at hv
  · cases hv
  · rename_i hroot
    have hroot := not_not.1 hroot
    have hleaves : (hashes log).take reached = leaves := by
      refine hc.mth_injective ?_
      rw [← hcovers.root_eq, hroot, hhead]
    have hsize : reached = s.treeHead.size := by
      rw [hhead, ← hleaves, hashes, List.length_take, List.length_map]
      exact (min_eq_left hle).symm
    subst hsize
    have hroot' : s.treeHead.root = mth ((hashes log).take s.treeHead.size) := by rw [← hroot, hcovers.root_eq]
    refine ⟨rfl, hroot', ?_⟩
    split at hv
    · rename_i hempty
      cases hv
      have hlen : (segment log through s.treeHead.size).length = 0 := by
        rw [List.isEmpty_iff.1 hempty]
        rfl
      rw [length_segment] at hlen
      exact ⟨fun _ => by omega, fun _ hd => by cases hd⟩
    · obtain ⟨rows, hrows, hpostings⟩ := buildBatch_spec s.period (sequenced_segment log through s.treeHead.size)
      rw [hrows] at hv
      cases hv
      refine ⟨fun hd => (by cases hd), fun d hd => ?_⟩
      cases hd
      have hlen := length_segment log through s.treeHead.size
      rw [min_eq_left hle] at hlen
      exact ⟨hlen, hpostings, rfl⟩

omit [DecidableEq H] in
/-- A commit of the delta archives what the seal covers. -/
theorem Archived.commit (h : Archived table log through) (hs : SealsLeaves s) (hthrough : through ≤ s.treeHead.size)
    (hle : s.treeHead.size ≤ log.length) {rows : List (ArchiveRow H P)} (hfile : table.stored.get? s.period = some rows)
    (hrows : rows.map (·.toArchivedPosting) = (segment log through s.treeHead.size).flatMap recordRows) {id : Int}
    {table' : Archive H P}
    (hcommit : table.commit s (((hashes log).take s.treeHead.size).foldl MerkleAccumulator.push .new) id = some table') :
    Archived table' log s.treeHead.size where
  le := hle
  fits := hs.fits
  state := by
    refine archiveState_commit hcommit (MerkleAccumulator.covers_foldl _) ?_ hs.fits
    rw [hashes, List.length_take, List.length_map, min_eq_left hle]
  rows := by
    rw [rows_commit hcommit hfile, List.map_append, h.rows, hrows, postingsThrough_eq, postingsThrough_eq, ← List.flatMap_append,
      segment_append (Nat.zero_le _) hthrough]

/-! ## One call after another -/

/-- What a call does to the archive of a log that has `through` entries archived. -/
structure Compacted (table : Archive H P) (through : Nat) (s : Seal H) (log' : List (Logged H P))
    (r : Except (ColdTierError H) (Compaction H)) (table' : Archive H P) : Prop where
  archived : ∃ through', through ≤ through' ∧ Archived table' log' through'
  ok : ∀ c, r = .ok c → Archived table' log' s.treeHead.size ∧ c.archivedThrough = s.treeHead.size ∧
    c.entries = s.treeHead.size - through ∧ c.verifiedRoot = s.treeHead.root ∧
    s.treeHead.root = mth ((hashes log').take s.treeHead.size)
  error : ∀ e, r = .error e → table'.rows = table.rows ∧ table'.listed = table.listed ∧ table'.current = table.current

/-- Where a call writes its data file, the table lists none of its name. -/
def FreshFile (table : Archive H P) (x : Attempt H P) : Prop :=
  x.writes = true → ∀ state delta, verified table x = some (.ok (state, some delta)) → x.target.period ∉ table.listed

omit [DecidableEq H] in
theorem Compacted.failed {log' : List (Logged H P)} (h : Archived table log' through) (e : ColdTierError H) :
    Compacted table through s log' (.error e) table :=
  ⟨⟨through, le_rfl, h⟩, fun _ hc => (by cases hc), fun _ _ => ⟨rfl, rfl, rfl⟩⟩

omit [DecidableEq H] in
theorem Compacted.done {log' : List (Logged H P)} {table' : Archive H P} {c : Compaction H}
    (h : Archived table' log' s.treeHead.size) (hthrough : through ≤ s.treeHead.size)
    (hroot : s.treeHead.root = mth ((hashes log').take s.treeHead.size)) (harchived : c.archivedThrough = s.treeHead.size)
    (hentries : c.entries = s.treeHead.size - through)
    (hverified : c.verifiedRoot = (((hashes log').take s.treeHead.size).foldl MerkleAccumulator.push .new).root) :
    Compacted table through s log' (.ok c) table' := by
  refine ⟨⟨_, hthrough, h⟩, fun c' hc' => ?_, fun _ he => (by cases he)⟩
  cases hc'
  have hmth : c.verifiedRoot = s.treeHead.root := by
    rw [hverified, hroot]
    exact (MerkleAccumulator.covers_foldl _).root_eq
  exact ⟨h, harchived, hentries, hmth, hroot⟩

/-- A call that got past its checks loaded what is archived, and its delta is what the seal covers. -/
theorem Archived.verified (hc : Collisionless H) (h : Archived table log through) {x : Attempt H P}
    (hs : SealsLeaves x.target) {log' : List (Logged H P)} (hgrows : Grows log x.views log') {state : ArchiveState H}
    {delta : Option (Delta H P)} (hx : L4.verified table x = some (.ok (state, delta))) :
    state = ⟨through, ((hashes log').take through).foldl MerkleAccumulator.push .new⟩ ∧ through ≤ x.target.treeHead.size ∧
      x.target.treeHead.size ≤ log'.length ∧ x.target.treeHead.root = mth ((hashes log').take x.target.treeHead.size) ∧
      (delta = none → through = x.target.treeHead.size) ∧
      ∀ d, delta = some d → d.entries = x.target.treeHead.size - through ∧
        d.rows.map (·.toArchivedPosting) = (segment log' through x.target.treeHead.size).flatMap recordRows ∧
        d.accumulator = ((hashes log').take x.target.treeHead.size).foldl MerkleAccumulator.push .new := by
  unfold L4.verified at hx
  split at hx
  · cases hx
  · cases hload : loadFor table x.target with
    | error e =>
      simp only [hload] at hx
      cases hx
    | ok loaded =>
      simp only [hload] at hx
      obtain ⟨hthrough, rfl⟩ := loadFor_eq_ok h hload
      obtain ⟨collected, hcollect, hx⟩ := Option.map_eq_some_iff.1 hx
      obtain ⟨delta', hv, hpair⟩ := map_eq_ok.1 hx
      cases hpair
      obtain ⟨entries, rfl, hv⟩ := bind_eq_ok.1 hv
      obtain ⟨reached, hge, -, hle, rfl⟩ := collect_spec hgrows h.le hthrough hcollect
      rw [← take_hashes_of_later hgrows.later h.le] at hv ⊢
      obtain ⟨rfl, hroot, hnone, hsome⟩ := verifyDelta_spec hc hs hge hle hv
      exact ⟨rfl, hthrough, hle, hroot, hnone, hsome⟩

/-- **One call.** It archives exactly what its seal covers, or nothing. -/
theorem Archived.compact (hc : Collisionless H) (h : Archived table log through) {x : Attempt H P}
    (hs : SealsLeaves x.target) {log' : List (Logged H P)} (hgrows : Grows log x.views log') (hfresh : FreshFile table x)
    {r : Except (ColdTierError H) (Compaction H)} {table' : Archive H P} (hx : L4.compact table x = some (r, table')) :
    Compacted table through x.target log' r table' := by
  have h' := h.mono hgrows.later
  obtain ⟨outcome, hverified, hx⟩ := Option.map_eq_some_iff.1 hx
  cases outcome with
  | error e =>
    cases hx
    exact .failed h' e
  | ok v =>
    obtain ⟨state, delta⟩ := v
    obtain ⟨rfl, hthrough, hle, hroot, hnone, hsome⟩ := h.verified hc hs hgrows hverified
    cases delta with
    | none =>
      cases hx
      obtain rfl := hnone rfl
      exact .done h' le_rfl hroot rfl (Nat.sub_self _).symm rfl
    | some d =>
      obtain ⟨hentries, hrows, haccumulator⟩ := hsome d rfl
      simp only [finish] at hx
      split at hx
      · cases hx
        exact .failed h' _
      · rename_i hwrites
        have hnew := hfresh (by simpa using hwrites) _ _ hverified
        have hwritten := h'.write hnew d.rows
        split at hx
        · -- the file is there, and nobody lists it
          cases hx
          exact ⟨⟨_, le_rfl, hwritten⟩, fun _ hok => (by cases hok), fun _ _ => ⟨Archive.rows_write hnew _, rfl, rfl⟩⟩
        · rename_i id committed hcommitted
          cases hx
          obtain ⟨id', -, hcommit⟩ := Option.bind_eq_some_iff.1 hcommitted
          obtain ⟨table', hcommit, hpair⟩ := Option.map_eq_some_iff.1 hcommit
          cases hpair
          rw [haccumulator] at hcommit
          have hfile : (table.write x.target.period d.rows).stored.get? x.target.period = some d.rows := OrdMap.get?_insert_self
          have happ := hwritten.commit hs hthrough hle hfile hrows hcommit
          exact .done happ hthrough hroot rfl hentries (congrArg MerkleAccumulator.root haccumulator)

omit [HashBytes H] [DecidableEq H] in
theorem logIndex_lt {p : ArchivedPosting H P} (hp : p ∈ postingsThrough log through) : p.logIndex < through := by
  obtain ⟨x, hx, hp⟩ := List.mem_flatMap.1 hp
  obtain ⟨y, -, rfl⟩ := List.mem_map.1 hp
  obtain ⟨i, hi, rfl⟩ := List.mem_take_iff_getElem.1 hx
  show min (log.zipIdx[i]).2 (2 ^ 63 - 1) < through
  rw [List.getElem_zipIdx]
  omega

omit [HashBytes H] [DecidableEq H] in
/-- The first row of a segment is of the position where it starts. -/
theorem exists_row_segment {log : List (Logged H P)} {a b : Nat} (hab : a < b) (hb : b ≤ log.length)
    (hpostings : ∀ e ∈ log, e.entry.postings ≠ []) (hroom : log.length < 2 ^ 63) :
    ∃ p ∈ (segment log a b).flatMap recordRows, p.logIndex = a := by
  have hlen : 0 < (segment log a b).length := by
    rw [length_segment]
    omega
  have hfirst : (segment log a b)[0] = ⟨log[a], some a⟩ := by
    simp [segment, storedEntries]
  obtain ⟨p, ps, hps⟩ := List.exists_cons_of_ne_nil (hpostings log[a] (List.getElem_mem _))
  have hrow : recordRows (segment log a b)[0] = archivedPostings a log[a] := by rw [hfirst]; rfl
  have hcons : ∃ q qs, archivedPostings a log[a] = q :: qs ∧ q.logIndex = a := by
    unfold archivedPostings
    rw [hps, List.zipIdx_cons, List.map_cons]
    exact ⟨_, _, rfl, show min a (2 ^ 63 - 1) = a by omega⟩
  obtain ⟨q, qs, hq, hindex⟩ := hcons
  refine ⟨q, List.mem_flatMap.2 ⟨_, List.getElem_mem hlen, ?_⟩, hindex⟩
  rw [hrow, hq]
  exact List.mem_cons_self

theorem delta_past {x : Attempt H P} {state : ArchiveState H} {delta : Delta H P}
    (hx : L4.verified table x = some (.ok (state, some delta))) : state.through < x.target.treeHead.size := by
  by_contra hle
  unfold L4.verified at hx
  split at hx
  · cases hx
  · cases hload : loadFor table x.target with
    | error e =>
      simp only [hload] at hx
      cases hx
    | ok loaded =>
      simp only [hload] at hx
      obtain ⟨collected, hcollect, hx⟩ := Option.map_eq_some_iff.1 hx
      obtain ⟨delta', hv, hpair⟩ := map_eq_ok.1 hx
      cases hpair
      unfold collect at hcollect
      rw [if_pos (not_lt.1 hle)] at hcollect
      cases hcollect
      simp only [verifyDelta, bind, Except.bind] at hv
      split at hv
      · cases hv
      · cases hv

/-- **A call that writes over a listed file breaks the law**: it fails, and its delta is in the
table, which was the archive of the entries before. -/
theorem freshFile_of_compacted (hc : Collisionless H) (h : Archived table log through) {x : Attempt H P}
    (hs : SealsLeaves x.target) {log' : List (Logged H P)} (hgrows : Grows log x.views log')
    (hpostings : ∀ e ∈ log', e.entry.postings ≠ []) (hroom : log'.length < 2 ^ 63)
    {r : Except (ColdTierError H) (Compaction H)} {table' : Archive H P} (hx : L4.compact table x = some (r, table'))
    (hlaw : Compacted table through x.target log' r table') : FreshFile table x := by
  intro hwrites state delta hverified hlisted
  obtain ⟨rfl, hthrough, hle, -, -, hsome⟩ := h.verified hc hs hgrows hverified
  obtain ⟨-, hrows, -⟩ := hsome delta rfl
  have hpast := delta_past hverified
  -- the commit is refused
  have hfailed : L4.compact table x = some (.error .iceberg, table.write x.target.period delta.rows) := by
    have hrefused : ∀ id, (table.write x.target.period delta.rows).commit x.target delta.accumulator id = none := fun id =>
      if_pos (List.contains_iff_mem.2 hlisted)
    unfold L4.compact
    rw [hverified]
    cases x.commits <;> simp [finish, hwrites, hrefused]
  rw [hfailed] at hx
  cases hx
  have hsame := (hlaw.error _ rfl).1
  obtain ⟨p, hp, hindex⟩ := exists_row_segment hpast hle hpostings hroom
  rw [← hrows] at hp
  obtain ⟨row, hrow, rfl⟩ := List.mem_map.1 hp
  have hread : row ∈ (table.write x.target.period delta.rows).rows :=
    List.mem_flatMap.2 ⟨_, hlisted, by rw [Archive.write, OrdMap.get?_insert_self]; exact hrow⟩
  rw [hsame] at hread
  have harchived : row.toArchivedPosting ∈ postingsThrough log through := h.rows ▸ List.mem_map_of_mem hread
  exact absurd hindex (logIndex_lt harchived).ne

/-- A call returns once it has had a page for each entry of its delta, and one more. -/
theorem compact_returns (h : Archived table log through) {x : Attempt H P} {log' : List (Logged H P)}
    (hgrows : Grows log x.views log') (hviews : x.target.treeHead.size - through < x.views.length) :
    (L4.compact table x).isSome := by
  unfold L4.compact
  rw [Option.isSome_map]
  unfold L4.verified
  split
  · rfl
  · cases hload : loadFor table x.target with
    | error e => rfl
    | ok state =>
      obtain ⟨hthrough, rfl⟩ := loadFor_eq_ok h hload
      simp only [Option.isSome_map]
      unfold collect
      split
      · rfl
      · have hfirst := first_resume through
        have hle := h.le
        exact collectLoop_returns hgrows (by omega) (by omega) (by omega)

/-- A store that grows, and its table. -/
structure ColdStore (H : Type) (P : Scale) where
  log : List (Logged H P)
  table : Archive H P

/-- Calls one after another, each with what it returned, from a table without a snapshot. -/
def compactions : LTS (ColdStore H P) (Attempt H P × Except (ColdTierError H) (Compaction H)) where
  init s := s.table = .empty
  step s l s' := compact s.table l.1 = some (l.2, s'.table) ∧ Grows s.log l.1.views s'.log ∧ SealsLeaves l.1.target

/-- A call writes for a period that has no file in the table. -/
def WritesFresh (s : ColdStore H P) (l : Attempt H P × Except (ColdTierError H) (Compaction H)) : Prop := FreshFile s.table l.1

theorem archived_inductive (hc : Collisionless H) :
    (compactions.restrict WritesFresh : LTS (ColdStore H P) _).Inductive fun s => ∃ through, Archived s.table s.log through where
  init s h := by
    have htable : s.table = .empty := h
    exact ⟨0, htable ▸ archived_empty s.log⟩
  step s l s' h st := by
    obtain ⟨through, h⟩ := h
    obtain ⟨⟨hcompact, hgrows, hs⟩, hfresh⟩ := st
    obtain ⟨through', -, h'⟩ := (h.compact hc hs hgrows hfresh hcompact).archived
    exact ⟨through', h'⟩

/-- **The archive is the log, once, while calls write for fresh periods.** In every state of
such a run the rows are the postings of the first `through` entries and the accumulator is
theirs. The next such call obeys the law, and where entries have postings no other call does. -/
theorem archive_is_log (hc : Collisionless H) {s : ColdStore H P} (hs : (compactions.restrict WritesFresh).Reachable s) :
    ∃ through, Archived s.table s.log through ∧ ∀ x r s', compactions.step s (x, r) s' →
      (FreshFile s.table x → Compacted s.table through x.target s'.log r s'.table) ∧
      ((∀ e ∈ s'.log, e.entry.postings ≠ []) → s'.log.length < 2 ^ 63 →
        Compacted s.table through x.target s'.log r s'.table → FreshFile s.table x) := by
  obtain ⟨through, h⟩ := (archived_inductive hc).reachable hs
  exact ⟨through, h, fun x r s' st => ⟨fun hfresh => h.compact hc st.2.2 st.2.1 hfresh st.1,
    fun hpostings hroom hlaw => freshFile_of_compacted hc h st.2.2 st.2.1 hpostings hroom st.1 hlaw⟩⟩

end

/-! ## Two seals -/

/-- The digits of a frame, then as many bytes. -/
instance : HashBytes Framed where
  fromBytes b := if (b.takeWhile (· = 1)).length < b.length then some ⟨b.drop ((b.takeWhile (· = 1)).length + 1)⟩ else none
  fromBytes_asBytes h := by
    have htake : (List.replicate h.bytes.length (1 : UInt8) ++ 0 :: h.bytes).takeWhile (· = 1) =
        List.replicate h.bytes.length 1 := by
      rw [List.takeWhile_append_of_pos (by simp)]
      simp
    simp only [Blake3.asBytes, htake]
    simp [List.drop_append]

def twoSales : List (Logged Framed cents) :=
  [⟨Tables.framedSale, ⟨[1]⟩⟩, ⟨{ Tables.framedSale with id := saleOfApril.id }, ⟨[2]⟩⟩]

/-- A seal of a period over the leaves. -/
def sealOver (period : PeriodId) (leaves : List Framed) : Seal Framed :=
  Seal.build books period ⟨none, none, 0⟩ ⟨leaves.length, mth leaves⟩ (TrialBalance.new : TrialBalance cents) ⟨0, emptyRoot⟩ none

/-- The log grows before the first page is counted, and the next page is past the seal. -/
def firstAttempt : Attempt Framed cents :=
  ⟨sealOver march.id [⟨[1]⟩], true, [some (twoSales.take 1, twoSales), some (twoSales, twoSales)], true, some 7⟩

/-- Both sales, for another period or for the same one. -/
def bothAttempt (period : PeriodId) : Attempt Framed cents :=
  ⟨sealOver period [⟨[1]⟩, ⟨[2]⟩], true, [some (twoSales, twoSales)], true, some 8⟩

def afterAttempt (table : Archive Framed cents) (x : Attempt Framed cents) : Archive Framed cents :=
  ((compact table x).map Prod.snd).getD table

def afterFirst : Archive Framed cents := afterAttempt .empty firstAttempt

def afterSecond : Archive Framed cents := afterAttempt afterFirst (bothAttempt april.id)

/-- After another seal of March. -/
def afterAgain : Archive Framed cents := afterAttempt afterFirst (bothAttempt march.id)

theorem sealsLeaves_sealOver {period : PeriodId} {leaves : List Framed} (h : leaves.length < 2 ^ 64) :
    SealsLeaves (sealOver period leaves) := ⟨⟨leaves, rfl⟩, h⟩

theorem compact_afterAttempt (table : Archive Framed cents) (x : Attempt Framed cents) (h : (compact table x).isSome) :
    ∃ r, compact table x = some (r, afterAttempt table x) := by
  obtain ⟨⟨r, t⟩, hx⟩ := Option.isSome_iff_exists.1 h
  exact ⟨r, by rw [afterAttempt, hx]; rfl⟩

theorem grows_twoSales (period : PeriodId) : Grows twoSales (bothAttempt period).views twoSales :=
  .seen (List.prefix_refl _) (List.prefix_refl _) (.nil (List.prefix_refl _))

set_option maxRecDepth 10000 in
theorem reachable_afterFirst : (compactions.restrict WritesFresh).Reachable ⟨twoSales, afterFirst⟩ := by
  obtain ⟨r, h⟩ := compact_afterAttempt .empty firstAttempt (by decide)
  have hgrows : Grows (twoSales.take 1) firstAttempt.views twoSales :=
    .seen (List.prefix_refl _) (List.take_prefix 1 twoSales)
      (.seen (List.prefix_refl _) (List.prefix_refl _) (.nil (List.prefix_refl _)))
  have hinit : (compactions.restrict WritesFresh).init (⟨twoSales.take 1, .empty⟩ : ColdStore Framed cents) := rfl
  exact (LTS.Reachable.of_init hinit).step (l := (firstAttempt, r))
    ⟨⟨h, hgrows, sealsLeaves_sealOver (by decide)⟩, fun _ _ _ _ => List.not_mem_nil⟩

set_option maxRecDepth 10000 in
/-- Not vacuous: with a seal of another period the second call archives the second sale. -/
theorem afterSecond_archived : ∃ r, Compacted afterFirst 1 (bothAttempt april.id).target twoSales r afterSecond ∧
    afterSecond.rows.map (·.logIndex) = [0, 0, 1, 1] := by
  obtain ⟨through, h, hstep⟩ := archive_is_log collisionless_framed reachable_afterFirst
  obtain ⟨r, hr⟩ := compact_afterAttempt afterFirst (bothAttempt april.id) (by decide)
  have hthrough : through = 1 := by
    have hstate := congrArg (fun x => x.toOption.map (·.through)) h.state
    have hread : (archiveState afterFirst).toOption.map (·.through) = some 1 := by decide
    exact Option.some.inj (hstate.symm.trans hread)
  subst hthrough
  have hfresh : FreshFile afterFirst (bothAttempt april.id) := fun _ _ _ _ => by decide
  exact ⟨r, (hstep (bothAttempt april.id) r ⟨twoSales, afterSecond⟩
    ⟨hr, grows_twoSales april.id, sealsLeaves_sealOver (by decide)⟩).1 hfresh, by decide⟩

set_option maxRecDepth 10000 in
/-- **A second seal of March overwrites its file.** The call fails, and the first sale is no longer
in the table; the second is there, and `archived_through` says that it is still to come. So the
next call archives it again. -/
theorem second_seal_overwrites : compactions.Reachable ⟨twoSales, afterFirst⟩ ∧
    (∃ r, compactions.step ⟨twoSales, afterFirst⟩ (bothAttempt march.id, r) ⟨twoSales, afterAgain⟩ ∧ r.isOk = false) ∧
    afterFirst.rows.map (·.logIndex) = [0, 0] ∧ afterAgain.rows.map (·.logIndex) = [1, 1] ∧
    (∀ through, ¬ Archived afterAgain twoSales through) ∧
    (afterAttempt afterAgain (bothAttempt april.id)).rows.map (·.logIndex) = [1, 1, 1, 1] := by
  refine ⟨.of_restrict reachable_afterFirst, ?_, by decide, by decide, fun through h => ?_, by decide⟩
  · obtain ⟨r, hr⟩ := compact_afterAttempt afterFirst (bothAttempt march.id) (by decide)
    refine ⟨r, ⟨hr, grows_twoSales march.id, sealsLeaves_sealOver (by decide)⟩, ?_⟩
    have hfails : (compact afterFirst (bothAttempt march.id)).map (·.1.isOk) = some false := by decide
    rw [hr] at hfails
    exact Option.some.inj hfails
  · have hstate := congrArg (fun x => x.toOption.map (·.through)) h.state
    have hread : (archiveState afterAgain).toOption.map (·.through) = some 1 := by decide
    obtain rfl : through = 1 := (Option.some.inj (hread.symm.trans hstate)).symm
    have hindices := congrArg (List.map (·.logIndex)) h.rows
    rw [List.map_map] at hindices
    exact absurd hindices (by decide)

end DoubleEntry.L4
