import DoubleEntry.L4Store.ColdTierRun

/-!
# Overlapping compactions

Several calls of `compact` on one table. A call loads the table, collects and
verifies its delta, writes its data file, and commits. A commit is atomic, and one
whose base snapshot has moved is applied on top of the new one; it is refused if the
table then lists a file of its name.

* `load`: the table's current snapshot, its `archived_through` and accumulator, checked against the
  seal (`src/storage/iceberg.rs:392-458`).
* `collect`: pages of the log from there to the size of the seal, each a read of its own, and
  the root they lead to. A delta that is empty or does not verify ends the call.
* `write`: the data file, under the name of the period.
* `commit`: one snapshot with the file and the new properties.
* `grow`: entries are sequenced meanwhile. `fail`: a call ends, and its file stays.

**What goes wrong.** Nothing ties the commit to the state that was loaded: two calls
that overlap archive the same entries twice, and the later commit may set
`archived_through` back (`overlapping_calls`). And nothing ties the file to its call:
another one of the same period overwrites it, before the commit or after it.

**Undisturbed runs.** Every commit finds the snapshot its call loaded, and a call writes
its file when no other of its name is in the table or in flight (`Undisturbed`).

**Assumptions.** As for calls one after another: `Collisionless`, `SealsLeaves`, `Grows`;
entries have postings, and their positions fit the column (`Offers`).

**Results.**
* `undisturbed_archive_once`: in every undisturbed run every position is archived once,
  and `archived_through` counts them.
* `overlapping_calls`: it fails in a run of two calls for two periods.
-/
namespace DoubleEntry.L5

open DoubleEntry.Core DoubleEntry.L1 DoubleEntry.L2 DoubleEntry.L3 DoubleEntry.L4

variable {H : Type} {P : Scale}

/-! ## Calls in flight -/

/-- Where a call is. `base` is the snapshot of the table it loaded, `seen` the log then. -/
inductive CompactPhase (H : Type) (P : Scale)
  | idle
  | loaded (target : Seal H) (base : Option Snapshot) (state : ArchiveState H) (seen : List (Logged H P))
  | verified (target : Seal H) (base : Option Snapshot) (delta : Delta H P)
  | written (target : Seal H) (base : Option Snapshot) (delta : Delta H P)

/-- The name of the data file that a call has written. -/
def CompactPhase.file : CompactPhase H P → Option PeriodId
  | .written target _ _ => some target.period
  | _ => none

structure Compactors (H : Type) (P : Scale) where
  log : List (Logged H P)
  table : Archive H P
  calls : Nat → CompactPhase H P

inductive CompactLabel (H : Type) (P : Scale)
  | grow (more : List (Logged H P))
  | load (i : Nat) (target : Seal H)
  | collect (i : Nat) (views : List (PageView H P))
  | write (i : Nat)
  | commit (i : Nat) (id : Int)
  | fail (i : Nat)

/-- The call whose step it is. -/
def CompactLabel.call : CompactLabel H P → Option Nat
  | .grow _ => none
  | .load i _ => some i
  | .collect i _ => some i
  | .write i => some i
  | .commit i _ => some i
  | .fail i => some i

namespace Compactors

def setCall (s : Compactors H P) (i : Nat) (phase : CompactPhase H P) : Compactors H P :=
  { s with calls := Function.update s.calls i phase }

variable [HashBytes H]

section
variable [DecidableEq H]

/-- The steps of `compact`. mirrors src/storage/iceberg.rs:392-458 -/
def step (s : Compactors H P) : CompactLabel H P → Option (Compactors H P)
  | .grow more => some { s with log := s.log ++ more }
  | .load i target =>
    match s.calls i with
    | .idle =>
      match loadFor s.table target with
      | .error _ => some s
      | .ok state => some (s.setCall i (.loaded target s.table.current state s.log))
    | _ => none
  | .collect i views =>
    match s.calls i with
    | .loaded target base state _ => (collect state.through target.treeHead.size views).map fun collected =>
        match collected >>= verifyDelta state target with
        | .ok (some delta) => s.setCall i (.verified target base delta)
        | _ => s.setCall i .idle
    | _ => none
  | .write i =>
    match s.calls i with
    | .verified target base delta =>
      some { s.setCall i (.written target base delta) with table := s.table.write target.period delta.rows }
    | _ => none
  | .commit i id =>
    match s.calls i with
    | .written target _ delta =>
      match s.table.commit target delta.accumulator id with
      | none => some (s.setCall i .idle)
      | some table => some { s.setCall i .idle with table := table }
    | _ => none
  | .fail i => some (s.setCall i .idle)

/-- What a step can do. -/
inductive Effect (s : Compactors H P) : CompactLabel H P → Compactors H P → Prop
  | grow (more : List (Logged H P)) : Effect s (.grow more) { s with log := s.log ++ more }
  | refused (i : Nat) (target : Seal H) : Effect s (.load i target) s
  | load {i : Nat} {target : Seal H} {state : ArchiveState H} (hload : loadFor s.table target = .ok state) :
      Effect s (.load i target) (s.setCall i (.loaded target s.table.current state s.log))
  | collect {i : Nat} {views : List (PageView H P)} {target : Seal H} {base : Option Snapshot} {state : ArchiveState H}
      {seen : List (Logged H P)} {collected : Except (ColdTierError H) (List (StoredEntry H P))} {delta : Delta H P}
      (hcall : s.calls i = .loaded target base state seen)
      (hcollect : L4.collect state.through target.treeHead.size views = some collected)
      (hv : collected >>= verifyDelta state target = .ok (some delta)) :
      Effect s (.collect i views) (s.setCall i (.verified target base delta))
  | write {i : Nat} {target : Seal H} {base : Option Snapshot} {delta : Delta H P}
      (hcall : s.calls i = .verified target base delta) :
      Effect s (.write i) { s.setCall i (.written target base delta) with table := s.table.write target.period delta.rows }
  | commit {i : Nat} {id : Int} {target : Seal H} {base : Option Snapshot} {delta : Delta H P} {table : Archive H P}
      (hcall : s.calls i = .written target base delta)
      (hcommit : s.table.commit target delta.accumulator id = some table) :
      Effect s (.commit i id) { s.setCall i .idle with table := table }
  | ends {l : CompactLabel H P} {i : Nat} (hl : l.call = some i) : Effect s l (s.setCall i .idle)

theorem effect_of_step {s s' : Compactors H P} {l : CompactLabel H P} (h : s.step l = some s') : Effect s l s' := by
  unfold step at h
  cases l with
  | grow more =>
    cases h
    exact .grow more
  | load i target =>
    simp only at h
    split at h
    · split at h
      · cases h
        exact .refused i target
      · rename_i state hload
        cases h
        exact .load hload
    · cases h
  | collect i views =>
    simp only at h
    split at h
    · rename_i hcall
      obtain ⟨collected, hcollect, hs'⟩ := Option.map_eq_some_iff.1 h
      split at hs'
      · rename_i delta hv
        subst hs'
        exact .collect hcall hcollect hv
      · subst hs'
        exact .ends rfl
    · cases h
  | write i =>
    simp only at h
    split at h
    · rename_i hcall
      cases h
      exact .write hcall
    · cases h
  | commit i id =>
    simp only at h
    split at h
    · rename_i hcall
      split at h
      · cases h
        exact .ends rfl
      · rename_i table hcommit
        cases h
        exact .commit hcall hcommit
    · cases h
  | fail i =>
    cases h
    exact .ends rfl

end

/-- What is promised of a step: an entry has postings and a position in the column, a
seal the head of some leaves, and pages show the log as it grows. -/
def Offers (s : Compactors H P) : CompactLabel H P → Prop
  | .grow more => (∀ x ∈ more, x.entry.postings ≠ []) ∧ s.log.length + more.length < 2 ^ 63
  | .load _ target => SealsLeaves target
  | .collect i views =>
    match s.calls i with
    | .loaded _ _ _ seen => Grows seen views s.log
    | _ => True
  | _ => True

/-- A call writes a file when no other of its name is in the table or in flight, and commits on
the snapshot it loaded. -/
def Undisturbed (s : Compactors H P) : CompactLabel H P → Prop
  | .write i =>
    match s.calls i with
    | .verified target _ _ => target.period ∉ s.table.listed ∧ ∀ k, (s.calls k).file ≠ some target.period
    | _ => True
  | .commit i _ =>
    match s.calls i with
    | .written _ base _ => base = s.table.current
    | _ => True
  | _ => True

/-- Any calls on a store and a table that start empty. -/
def compactors [DecidableEq H] : LTS (Compactors H P) (CompactLabel H P) where
  init s := s = ⟨[], .empty, fun _ => .idle⟩
  step s l s' := s.step l = some s' ∧ s.Offers l

end Compactors

/-! ## The law -/

/-- The positions archived: that of an entry for each time its first posting is. -/
def archivedPositions (table : Archive H P) : List Nat :=
  (table.rows.filter fun r => r.postingIndex = 0).map (·.logIndex)

/-- Every position once, and as many as the table says. -/
structure ArchivedOnce [HashBytes H] (table : Archive H P) : Prop where
  once : (archivedPositions table).Nodup
  through : (archiveState table).toOption.map (·.through) = some (archivedPositions table).dedup.length

theorem archivedPositions_eq [HashBytes H] {table : Archive H P} {log : List (Logged H P)} {through : Nat}
    (h : Archived table log through) (hne : ∀ x ∈ log, x.entry.postings ≠ []) (hfits : log.length < 2 ^ 63) :
    archivedPositions table = List.range through := by
  have hone : ∀ x ∈ log.zipIdx.take through, ((archivedPostings x.2 x.1).filter fun r => r.postingIndex = 0).map (·.logIndex) =
      [x.2] := by
    intro x hx
    obtain ⟨hlt, hget⟩ := List.getElem?_eq_some_iff.1 (List.mem_zipIdx_iff_getElem?.1 (List.mem_of_mem_take hx))
    obtain ⟨p, ps, hps⟩ := List.exists_cons_of_ne_nil (hne x.1 (hget ▸ List.getElem_mem hlt))
    have hlater : ∀ y ∈ ps.zipIdx 1, min y.2 (2 ^ 31 - 1) ≠ 0 := fun y hy => by
      have hpos := List.le_snd_of_mem_zipIdx hy
      omega
    have hindex : min x.2 (2 ^ 63 - 1) = x.2 := by omega
    unfold archivedPostings
    rw [hps, List.zipIdx_cons, List.map_cons, List.filter_cons_of_pos (by simp), List.map_cons, hindex, List.filter_map]
    have hnil : (ps.zipIdx 1).filter (fun y => decide (min y.2 (2 ^ 31 - 1) = 0)) = [] :=
      List.filter_eq_nil_iff.2 fun y hy => by simpa using hlater y hy
    simp only [Function.comp_def]
    rw [Nat.zero_add, hnil]
    rfl
  have hrows : archivedPositions table = ((postingsThrough log through).filter fun r => r.postingIndex = 0).map (·.logIndex) := by
    rw [← h.rows, List.filter_map, List.map_map]
    rfl
  have hsnd : (log.zipIdx.take through).map Prod.snd = List.range through := by
    rw [List.map_take, List.zipIdx_map_snd, List.range_eq_range', List.take_range'_of_length_ge h.le]
  rw [hrows, postingsThrough, List.filter_flatMap, List.map_flatMap, List.flatMap_congr hone, ← hsnd]
  exact List.flatMap_pure_eq_map _ _

theorem archivedOnce_of_archived [HashBytes H] {table : Archive H P} {log : List (Logged H P)} {through : Nat}
    (h : Archived table log through) (hne : ∀ x ∈ log, x.entry.postings ≠ []) (hfits : log.length < 2 ^ 63) :
    ArchivedOnce table := by
  have hpositions := archivedPositions_eq h hne hfits
  refine ⟨by rw [hpositions]; exact List.nodup_range, ?_⟩
  rw [h.state, hpositions, List.nodup_range.dedup, List.length_range]
  rfl

/-! ## Undisturbed runs -/

namespace Compactors

variable [HashBytes H]

/-- A delta from the state that the base carries to the size of the seal. -/
structure DeltaOf (log : List (Logged H P)) (target : Seal H) (base : Option Snapshot) (delta : Delta H P) : Prop where
  seals : SealsLeaves target
  le : target.treeHead.size ≤ log.length
  accumulator : delta.accumulator = ((hashes log).take target.treeHead.size).foldl MerkleAccumulator.push .new
  rows : ∃ state, archiveState (⟨.empty, [], base⟩ : Archive H P) = .ok state ∧ state.through ≤ target.treeHead.size ∧
    delta.rows.map (·.toArchivedPosting) = (segment log state.through target.treeHead.size).flatMap recordRows

/-- What a call holds, over the log: the state it loaded, then its delta. -/
def CallInv (log : List (Logged H P)) : CompactPhase H P → Prop
  | .idle => True
  | .loaded target base state seen => SealsLeaves target ∧ seen <+: log ∧ state.through ≤ target.treeHead.size ∧
      state.through ≤ seen.length ∧ archiveState (⟨.empty, [], base⟩ : Archive H P) = .ok state ∧
      state.accumulator = ((hashes log).take state.through).foldl MerkleAccumulator.push .new
  | .verified target base delta => DeltaOf log target base delta
  | .written target base delta => DeltaOf log target base delta

theorem DeltaOf.mono {log log' : List (Logged H P)} (hlog : log <+: log') {target : Seal H} {base : Option Snapshot}
    {delta : Delta H P} (h : DeltaOf log target base delta) : DeltaOf log' target base delta := by
  obtain ⟨hs, hle, hacc, state, hbase, hsize, hrows⟩ := h
  refine ⟨hs, hle.trans hlog.length_le, ?_, state, hbase, hsize, ?_⟩
  · rw [take_hashes_of_later hlog hle]
    exact hacc
  · rw [segment_of_later hlog hle]
    exact hrows

theorem CallInv.mono {log log' : List (Logged H P)} (hlog : log <+: log') {phase : CompactPhase H P}
    (h : CallInv log phase) : CallInv log' phase := by
  cases phase with
  | idle => trivial
  | loaded target base state seen =>
    obtain ⟨hs, hseen, hsize, hle, hbase, hacc⟩ := h
    refine ⟨hs, hseen.trans hlog, hsize, hle, hbase, ?_⟩
    rw [take_hashes_of_later hlog (hle.trans hseen.length_le)]
    exact hacc
  | verified target base delta => exact DeltaOf.mono hlog h
  | written target base delta => exact DeltaOf.mono hlog h

omit [HashBytes H] in
/-- A file that a call has written is its own until it commits or fails: its delta is there, the
table does not list it, and no other call has written one of its name. -/
structure OwnFiles (s : Compactors H P) : Prop where
  stored : ∀ i target base delta, s.calls i = .written target base delta →
    s.table.stored.get? target.period = some delta.rows ∧ target.period ∉ s.table.listed
  apart : ∀ i k period, (s.calls i).file = some period → (s.calls k).file = some period → i = k

structure Inv (s : Compactors H P) : Prop where
  postings : ∀ x ∈ s.log, x.entry.postings ≠ []
  fits : s.log.length < 2 ^ 63
  archived : ∃ through, Archived s.table s.log through
  calls : ∀ i, CallInv s.log (s.calls i)
  files : s.OwnFiles

omit [HashBytes H] in
theorem calls_setCall (s : Compactors H P) (i k : Nat) (phase : CompactPhase H P) :
    (s.setCall i phase).calls k = if k = i then phase else s.calls k := Function.update_apply s.calls i phase k

omit [HashBytes H] in
/-- A call that moves on without a file, on a table that keeps the files of the others. -/
theorem OwnFiles.setCall {s : Compactors H P} (h : s.OwnFiles) {i : Nat} {phase : CompactPhase H P} (hphase : phase.file = none)
    {table : Archive H P} (htable : ∀ k target base delta, k ≠ i → s.calls k = .written target base delta →
      table.stored.get? target.period = some delta.rows ∧ target.period ∉ table.listed) :
    OwnFiles { s.setCall i phase with table := table } where
  stored k target base delta hk := by
    have hk : (s.setCall i phase).calls k = .written target base delta := hk
    rw [calls_setCall] at hk
    split at hk
    · rw [hk] at hphase
      cases hphase
    · rename_i hne
      exact htable k target base delta hne hk
  apart k l period hk hl := by
    have hk : ((s.setCall i phase).calls k).file = some period := hk
    have hl : ((s.setCall i phase).calls l).file = some period := hl
    rw [calls_setCall] at hk hl
    split at hk
    · rw [hphase] at hk
      cases hk
    · split at hl
      · rw [hphase] at hl
        cases hl
      · exact h.apart k l period hk hl

/-- One call moves on, on the same table. -/
theorem Inv.setCall {s : Compactors H P} (h : s.Inv) (i : Nat) {phase : CompactPhase H P} (hphase : CallInv s.log phase)
    (hfile : phase.file = none) : (s.setCall i phase).Inv where
  postings := h.postings
  fits := h.fits
  archived := h.archived
  calls k := by
    rw [calls_setCall]
    split
    · exact hphase
    · exact h.calls k
  files := h.files.setCall hfile fun k target base delta _ hk => h.files.stored k target base delta hk

/-- A file of a new name is written. -/
theorem Inv.write {s : Compactors H P} (h : s.Inv) {i : Nat} {target : Seal H} {base : Option Snapshot} {delta : Delta H P}
    (hcall : s.calls i = .verified target base delta) (hlisted : target.period ∉ s.table.listed)
    (hothers : ∀ k, (s.calls k).file ≠ some target.period) :
    Inv { s.setCall i (.written target base delta) with table := s.table.write target.period delta.rows } := by
  obtain ⟨through, harch⟩ := h.archived
  have hinv := h.calls i
  rw [hcall] at hinv
  refine ⟨h.postings, h.fits, ⟨through, harch.write hlisted delta.rows⟩, fun k => ?_, fun k target' base' delta' hk => ?_,
    fun k l period hk hl => ?_⟩
  · show CallInv s.log ((s.setCall i (.written target base delta)).calls k)
    rw [calls_setCall]
    split
    · exact hinv
    · exact h.calls k
  · have hk : (s.setCall i (.written target base delta)).calls k = .written target' base' delta' := hk
    rw [calls_setCall] at hk
    split at hk
    · cases hk
      exact ⟨OrdMap.get?_insert_self, hlisted⟩
    · obtain ⟨hstored, hunlisted⟩ := h.files.stored k target' base' delta' hk
      have hne : target.period ≠ target'.period := fun e => hothers k (by rw [hk, e]; rfl)
      exact ⟨by rw [Archive.write, OrdMap.get?_insert, if_neg hne]; exact hstored, hunlisted⟩
  · have hk : ((s.setCall i (.written target base delta)).calls k).file = some period := hk
    have hl : ((s.setCall i (.written target base delta)).calls l).file = some period := hl
    rw [calls_setCall] at hk hl
    split at hk
    · rename_i hki
      cases hk
      split at hl
      · rename_i hli
        rw [hki, hli]
      · exact absurd hl (hothers l)
    · split at hl
      · cases hl
        exact absurd hk (hothers k)
      · exact h.files.apart k l period hk hl

variable [DecidableEq H]

omit [DecidableEq H] in
theorem Inv.load {s : Compactors H P} (h : s.Inv) {target : Seal H} (hs : SealsLeaves target) {state : ArchiveState H}
    (hload : loadFor s.table target = .ok state) : CallInv s.log (.loaded target s.table.current state s.log) := by
  obtain ⟨through, harch⟩ := h.archived
  obtain ⟨hsize, rfl⟩ := loadFor_eq_ok harch hload
  exact ⟨hs, List.prefix_refl _, hsize, harch.le, harch.state, rfl⟩

theorem CallInv.collect (hc : Collisionless H) {log seen : List (Logged H P)} {target : Seal H} {base : Option Snapshot}
    {state : ArchiveState H} (h : CallInv log (.loaded target base state seen)) {views : List (PageView H P)}
    (hgrows : Grows seen views log) {collected : Except (ColdTierError H) (List (StoredEntry H P))}
    (hcollect : L4.collect state.through target.treeHead.size views = some collected) {delta : Delta H P}
    (hv : collected >>= verifyDelta state target = .ok (some delta)) : CallInv log (.verified target base delta) := by
  obtain ⟨hs, hseen, hsize, hle, hbase, hacc⟩ := h
  obtain ⟨entries, rfl, hv⟩ := bind_eq_ok.1 hv
  obtain ⟨reached, hge, -, hreached, rfl⟩ := collect_spec hgrows hle hsize hcollect
  have hdelta : verifyDelta ⟨state.through, ((hashes log).take state.through).foldl MerkleAccumulator.push .new⟩ target
      (segment log state.through reached) = .ok (some delta) := by
    rw [← hacc]
    exact hv
  obtain ⟨rfl, -, -, hsome⟩ := verifyDelta_spec hc hs hge hreached hdelta
  obtain ⟨-, hrows, haccumulator⟩ := hsome delta rfl
  exact ⟨hs, hreached, haccumulator, _, hbase, hsize, hrows⟩

omit [DecidableEq H] in
/-- A commit on the snapshot that was loaded, of the file that was written. -/
theorem Inv.commit {s : Compactors H P} (h : s.Inv) {i : Nat} {target : Seal H} {base : Option Snapshot} {delta : Delta H P}
    (hcall : s.calls i = .written target base delta) (hbase : base = s.table.current) {id : Int} {table : Archive H P}
    (hcommit : s.table.commit target delta.accumulator id = some table) :
    Inv { s.setCall i .idle with table := table } := by
  have hidle : (s.setCall i .idle).Inv := h.setCall i trivial rfl
  obtain ⟨through, harch⟩ := h.archived
  have hinv := h.calls i
  rw [hcall] at hinv
  obtain ⟨hs, hle, hacc, state, hstate, hsize, hrows⟩ := hinv
  obtain ⟨hfile, -⟩ := h.files.stored i target base delta hcall
  have hcurrent : archiveState s.table = .ok state := by
    rw [← hstate, hbase]
    rfl
  rw [harch.state] at hcurrent
  cases hcurrent
  rw [hacc] at hcommit
  refine ⟨hidle.postings, hidle.fits, ⟨target.treeHead.size, harch.commit hs hsize hle hfile hrows hcommit⟩, hidle.calls,
    h.files.setCall rfl fun k target' base' delta' hne hk => ?_⟩
  obtain ⟨-, rfl⟩ := commit_eq_some hcommit
  obtain ⟨hstored, hunlisted⟩ := h.files.stored k target' base' delta' hk
  refine ⟨hstored, fun hmem => ?_⟩
  rcases List.mem_append.1 hmem with hmem | hmem
  · exact hunlisted hmem
  · have hsame : target'.period = target.period := List.mem_singleton.1 hmem
    exact hne (h.files.apart k i target.period (by rw [hk, ← hsame]; rfl) (by rw [hcall]; rfl))

theorem inv_inductive (hc : Collisionless H) :
    (compactors.restrict Undisturbed : LTS (Compactors H P) (CompactLabel H P)).Inductive Inv where
  init s h := by
    obtain rfl : s = ⟨[], .empty, fun _ => .idle⟩ := h
    exact ⟨by simp, Nat.two_pow_pos 63, ⟨0, archived_empty []⟩, fun _ => trivial,
      fun _ _ _ _ hk => (by cases hk), fun _ _ _ hk => (by cases hk)⟩
  step s l s' h st := by
    obtain ⟨⟨hstep, hoffers⟩, hundisturbed⟩ := st
    cases effect_of_step hstep with
    | grow more =>
      have hlog : s.log <+: s.log ++ more := List.prefix_append _ _
      obtain ⟨through, harch⟩ := h.archived
      refine ⟨?_, ?_, ⟨through, harch.mono hlog⟩, fun i => (h.calls i).mono hlog, h.files.stored, h.files.apart⟩
      · intro x hx
        rcases List.mem_append.1 hx with hx | hx
        · exact h.postings x hx
        · exact hoffers.1 x hx
      · show (s.log ++ more).length < 2 ^ 63
        rw [List.length_append]
        exact hoffers.2
    | refused i target => exact h
    | @load i target state hload => exact h.setCall i (h.load hoffers hload) rfl
    | @collect i views target base state seen collected delta hcall hcollect hv =>
      have hgrows : Grows seen views s.log := by simpa [Offers, hcall] using hoffers
      have hinv := h.calls i
      rw [hcall] at hinv
      exact h.setCall i (.collect hc hinv hgrows hcollect hv) rfl
    | @write i target base delta hcall =>
      obtain ⟨hlisted, hothers⟩ : target.period ∉ s.table.listed ∧ ∀ k, (s.calls k).file ≠ some target.period := by
        simpa [Undisturbed, hcall] using hundisturbed
      exact h.write hcall hlisted hothers
    | @commit i id target base delta table hcall hcommit =>
      have hbase : base = s.table.current := by simpa [Undisturbed, hcall] using hundisturbed
      exact h.commit hcall hbase hcommit
    | ends hl => exact h.setCall _ trivial rfl

/-- **Undisturbed calls archive once.** While every commit finds the snapshot its call
loaded, and every file is of a new name, the rows are the postings of the first
`archived_through` entries, each position once. -/
theorem undisturbed_archive_once (hc : Collisionless H) {s : Compactors H P}
    (hs : (compactors.restrict Undisturbed).Reachable s) :
    ArchivedOnce s.table ∧ ∃ through, Archived s.table s.log through := by
  have hinv := (inv_inductive hc).reachable hs
  obtain ⟨through, harch⟩ := hinv.archived
  exact ⟨archivedOnce_of_archived harch hinv.postings hinv.fits, through, harch⟩

end Compactors

/-! ## Two calls that overlap -/

namespace Compactors

section
variable [HashBytes H] [DecidableEq H]

def next (s : Compactors H P) (l : CompactLabel H P) : Compactors H P := (s.step l).getD s

theorem Effect.calls {s s' : Compactors H P} {l : CompactLabel H P} {k : Nat} (h : Effect s l s') (hk : l.call ≠ some k) :
    s'.calls k = s.calls k := by
  have hset : ∀ (i : Nat) (phase : CompactPhase H P), l.call = some i → (s.setCall i phase).calls k = s.calls k :=
    fun i phase hi => by rw [calls_setCall, if_neg fun e => hk (hi.trans (congrArg some e.symm))]
  cases h with
  | grow more => rfl
  | refused i target => rfl
  | load hload => exact hset _ _ rfl
  | collect hcall hcollect hv => exact hset _ _ rfl
  | write hcall => exact hset _ _ rfl
  | commit hcall hcommit => exact hset _ _ rfl
  | ends hl => exact hset _ _ hl

theorem calls_next {s : Compactors H P} {l : CompactLabel H P} {k : Nat} (h : l.call ≠ some k) :
    (s.next l).calls k = s.calls k := by
  unfold next
  cases hs : s.step l with
  | none => rfl
  | some s' => exact (effect_of_step hs).calls h

theorem step_next (s : Compactors H P) (l : CompactLabel H P) (h : (s.step l).isSome) (ho : s.Offers l) :
    compactors.step s l (s.next l) := by
  obtain ⟨t, ht⟩ := Option.isSome_iff_exists.1 h
  exact ⟨by rw [next, ht]; rfl, ho⟩

end

def marchSeal : Seal Framed := sealOver march.id [⟨[1]⟩]

def aprilSeal : Seal Framed := sealOver april.id [⟨[1]⟩, ⟨[2]⟩]

def bothSeen : List (PageView Framed cents) := [some (twoSales, twoSales)]

/-- Two sales, and no call yet. -/
def sold : Compactors Framed cents := next ⟨[], .empty, fun _ => .idle⟩ (.grow twoSales)

/-- Two calls have loaded the empty table. -/
def bothLoaded : Compactors Framed cents := (sold.next (.load 0 marchSeal)).next (.load 1 aprilSeal)

/-- Both have collected and written. -/
def bothWritten : Compactors Framed cents :=
  (((bothLoaded.next (.collect 0 bothSeen)).next (.collect 1 bothSeen)).next (.write 0)).next (.write 1)

/-- The call that archives both sales commits first. -/
def overlapped : Compactors Framed cents := (bothWritten.next (.commit 1 8)).next (.commit 0 7)

/-- One call, then the other. -/
def afterOne : Compactors Framed cents :=
  (((sold.next (.load 0 marchSeal)).next (.collect 0 bothSeen)).next (.write 0)).next (.commit 0 7)

def afterBoth : Compactors Framed cents :=
  (((afterOne.next (.load 1 aprilSeal)).next (.collect 1 bothSeen)).next (.write 1)).next (.commit 1 8)

theorem grows_bothSeen : Grows twoSales bothSeen twoSales :=
  .seen (List.prefix_refl _) (List.prefix_refl _) (.nil (List.prefix_refl _))

theorem sealsLeaves_both : SealsLeaves marchSeal ∧ SealsLeaves aprilSeal :=
  ⟨sealsLeaves_sealOver (by decide), sealsLeaves_sealOver (by decide)⟩

theorem step_sold : compactors.step ⟨[], .empty, fun _ => .idle⟩ (.grow twoSales) sold :=
  step_next _ _ rfl ⟨by decide, by decide⟩

set_option maxRecDepth 10000 in
theorem reachable_overlapped : compactors.Reachable overlapped := by
  have hsold : compactors.Reachable sold := .step (.of_init rfl) step_sold
  have hloaded : compactors.Reachable bothLoaded :=
    (hsold.step (step_next _ (.load 0 marchSeal) (by decide) sealsLeaves_both.1)).step
      (step_next _ (.load 1 aprilSeal) (by decide) sealsLeaves_both.2)
  have hverified := (hloaded.step (step_next _ (.collect 0 bothSeen) (by decide) grows_bothSeen)).step
    (step_next _ (.collect 1 bothSeen) (by decide) grows_bothSeen)
  have hwritten : compactors.Reachable bothWritten :=
    (hverified.step (step_next _ (.write 0) (by decide) trivial)).step (step_next _ (.write 1) (by decide) trivial)
  exact (hwritten.step (step_next _ (.commit 1 8) (by decide) trivial)).step
    (step_next _ (.commit 0 7) (by decide) trivial)

set_option maxRecDepth 10000 in
/-- **Overlapping calls archive twice**, and the later commit sets the table back: the
first sale is there twice, and `archived_through` says one of two. -/
theorem overlapping_calls : compactors.Reachable overlapped ∧ ¬ ArchivedOnce overlapped.table ∧
    archivedPositions overlapped.table = [0, 1, 0] ∧
    (archiveState overlapped.table).toOption.map (·.through) = some 1 := by
  refine ⟨reachable_overlapped, fun h => ?_, by decide, by decide⟩
  have htwice : ¬ (archivedPositions overlapped.table).Nodup := by decide
  exact htwice h.once

set_option maxRecDepth 10000 in
theorem reachable_afterBoth : (compactors.restrict Undisturbed).Reachable afterBoth := by
  have hsold : (compactors.restrict Undisturbed).Reachable sold := .step (.of_init rfl) ⟨step_sold, trivial⟩
  have hcollected := (hsold.step ⟨step_next _ (.load 0 marchSeal) (by decide) sealsLeaves_both.1, trivial⟩).step
    ⟨step_next _ (.collect 0 bothSeen) (by decide) grows_bothSeen, trivial⟩
  -- no file is in flight
  have hfirst : Undisturbed ((sold.next (.load 0 marchSeal)).next (.collect 0 bothSeen)) (.write 0) := by
    refine ⟨by decide, fun k => ?_⟩
    rcases k with - | k
    · decide
    · rw [calls_next (by simp [CompactLabel.call]), calls_next (by simp [CompactLabel.call])]
      exact fun hfile => by cases hfile
  have hone : (compactors.restrict Undisturbed).Reachable afterOne :=
    (hcollected.step ⟨step_next _ (.write 0) (by decide) trivial, hfirst⟩).step
      ⟨step_next _ (.commit 0 7) (by decide) trivial, rfl⟩
  have hboth := (hone.step ⟨step_next _ (.load 1 aprilSeal) (by decide) sealsLeaves_both.2, trivial⟩).step
    ⟨step_next _ (.collect 1 bothSeen) (by decide) grows_bothSeen, trivial⟩
  have hsecond : Undisturbed ((afterOne.next (.load 1 aprilSeal)).next (.collect 1 bothSeen)) (.write 1) := by
    refine ⟨by decide, fun k => ?_⟩
    rcases k with - | - | k
    · decide
    · decide
    · rw [calls_next (by simp [CompactLabel.call]), calls_next (by simp [CompactLabel.call]), afterOne]
      rw [calls_next (by simp [CompactLabel.call]), calls_next (by simp [CompactLabel.call]),
        calls_next (by simp [CompactLabel.call]), calls_next (by simp [CompactLabel.call])]
      exact fun hfile => by cases hfile
  exact (hboth.step ⟨step_next _ (.write 1) (by decide) trivial, hsecond⟩).step
    ⟨step_next _ (.commit 1 8) (by decide) trivial, rfl⟩

set_option maxRecDepth 10000 in
/-- Not vacuous: the second call archives what the first left. -/
theorem afterBoth_archive_once : archivedPositions afterBoth.table = [0, 1] ∧ ArchivedOnce afterBoth.table ∧
    ∃ through, Archived afterBoth.table afterBoth.log through :=
  ⟨by decide, undisturbed_archive_once collisionless_framed reachable_afterBoth⟩

end Compactors

end DoubleEntry.L5
