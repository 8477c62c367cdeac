import DoubleEntry.L3Ledger.Registry

/-!
# Restoring a registry from its records

`from_records` sorts the records by handle and restores one after another. A record at a
handle that is held overwrites its master data, so a repeated handle is no error.

**Assumptions.** None on the records: any list, in any order, of any accounts.

**Results.**
* `restore_ok_iff`: when one record is taken.
* `Holds.fit`: restored records fit, since the paths of a registry are distinct.
* `foldlM_restore_iff`: sorted records are restored exactly when they `Fit`: one handle a
  path, no gap, no window that closes before it opens.
* `fromRecords_iff`: so the promise of `from_records` is kept for every list but one that
  fits and repeats a handle; and any permutation of the records of a registry rebuilds it.
* `rentTwice_restored`: a list that repeats a handle and is taken.
-/
namespace DoubleEntry.L3

open DoubleEntry.Core DoubleEntry.L1 DoubleEntry.L2

namespace AccountRegistry

variable {r r' q : AccountRegistry} {records : List AccountRecord} {record : AccountRecord}

/-! ## Windows -/

/-- No account closes before it opens. -/
def Windowed (r : AccountRegistry) : Prop := ∀ a ∈ r.accounts, a.closedEarly = none

theorem Windowed.put (h : r.Windowed) {a : Account} (ha : a.closedEarly = none) (id : AccountId) : (r.put id a).Windowed := by
  intro b hb
  rcases List.mem_or_eq_of_mem_set hb with hb | rfl
  · exact h b hb
  · exact ha

theorem Windowed.register (h : r.Windowed) {a : Account} {id : AccountId} (hr : r.Registers a id r') : r'.Windowed := by
  intro b hb
  rw [hr.accounts, List.mem_append, List.mem_singleton] at hb
  rcases hb with hb | rfl
  · exact h b hb
  · exact hr.window

theorem Windowed.close (h : r.Windowed) {id : AccountId} {on : Date} (hr : r.close id on = .ok r') : r'.Windowed := by
  unfold AccountRegistry.close at hr
  cases hg : r.get id with
  | none => simp [hg] at hr
  | some account =>
    simp only [hg] at hr
    split at hr
    · cases hr
    · rename_i hon
      cases hr
      exact h.put (by simpa [Account.closedEarly] using hon) id

theorem Windowed.reopen (h : r.Windowed) {id : AccountId} (hr : r.reopen id = .ok r') : r'.Windowed := by
  unfold AccountRegistry.reopen at hr
  cases hg : r.get id with
  | none => simp [hg] at hr
  | some account =>
    simp only [hg] at hr
    cases hr
    exact h.put rfl id

theorem Windowed.setLimit (h : r.Windowed) {id : AccountId} {limit : BalanceLimit} (hr : r.setLimit id limit = .ok r') :
    r'.Windowed := by
  unfold AccountRegistry.setLimit at hr
  cases hg : r.get id with
  | none => simp [hg] at hr
  | some account =>
    simp only [hg] at hr
    cases hr
    have hwindow : { account with limit := limit }.closedEarly = none := h account (List.mem_of_getElem? hg)
    exact h.put hwindow id

theorem Windowed.restore (h : r.Windowed) (hr : r.restore record = .ok r') : r'.Windowed := by
  rcases restore_cases hr with ⟨-, hheld⟩ | ⟨hr, -⟩
  · obtain ⟨existing, hg⟩ := Option.isSome_iff_exists.1 hheld
    unfold AccountRegistry.restore at hr
    simp only [hg] at hr
    split at hr
    · cases hr
    · cases hearly : record.account.closedEarly with
      | some closed => simp [hearly] at hr
      | none =>
        simp only [hearly] at hr
        cases hr
        exact h.put hearly _
  · exact h.register hr

theorem windowed_inductive : calls.Inductive Windowed := by
  -- a refused call leaves the registry as it is
  have kept : ∀ {r : AccountRegistry} {x : Except AccountError AccountRegistry}, r.Windowed →
      (∀ r', x = .ok r' → r'.Windowed) → (x.toOption.getD r).Windowed := fun {r x} h hx => by
    cases x with
    | error e => exact h
    | ok r' => exact hx r' rfl
  refine ⟨fun r h => ?_, fun r k r' h st => ?_⟩
  · rw [h]
    exact fun a ha => absurd ha List.not_mem_nil
  obtain rfl : r' = r.after k := st
  cases k with
  | register account =>
    refine kept h fun r' hr => ?_
    obtain ⟨x, hx, rfl⟩ := map_eq_ok.1 hr
    exact h.register (registers_of_ok hx)
  | close id on => exact kept h fun r' hr => h.close hr
  | reopen id => exact kept h fun r' hr => h.reopen hr
  | setLimit id limit => exact kept h fun r' hr => h.setLimit hr
  | restore record => exact kept h fun r' hr => h.restore hr

/-! ## One record -/

theorem get_isSome_iff {id : AccountId} : (r.get id).isSome ↔ id.index < r.len := by simp [get, len]

/-- A record is restored at a handle of its path, or at the next one if the path is new. -/
theorem restore_ok_iff (h : r.Indexed) : (∃ r', r.restore record = .ok r') ↔
    record.account.closedEarly = none ∧ (r.paths[record.id.index]? = some record.account.path ∨
      record.id.index = r.len ∧ record.account.path ∉ r.paths) := by
  cases hg : r.get record.id with
  | some existing =>
    have hpath : r.paths[record.id.index]? = some existing.path := by rw [getElem?_paths, hg, Option.map_some]
    have hlt : record.id.index < r.len := get_isSome_iff.1 (by rw [hg, Option.isSome_some])
    have hne : record.id.index ≠ r.len := hlt.ne
    simp only [restore, hg, hpath, hne, false_and, or_false, Option.some.injEq]
    by_cases hsame : existing.path = record.account.path
    · cases hearly : record.account.closedEarly <;> simp [hsame]
    · simp [hsame]
  | none =>
    have hlen : r.len ≤ record.id.index := by
      rw [← not_lt, ← get_isSome_iff, hg]
      exact Bool.false_ne_true
    have hnone : r.paths[record.id.index]? = none := by rw [getElem?_paths, hg, Option.map_none]
    have hfits : r.len < 2 ^ 32 := hlen.trans_lt record.id.fits
    rw [hnone]
    constructor
    · rintro ⟨r', hok⟩
      rcases restore_cases hok with ⟨-, hheld⟩ | ⟨hr, -⟩
      · rw [hg] at hheld
        cases hheld
      · exact ⟨hr.window, .inr ⟨hr.handle, h.free.1 hr.free⟩⟩
    · rintro ⟨hwindow, hpath | ⟨hid, hfree⟩⟩
      · cases hpath
      · obtain ⟨id, r', hreg⟩ := register_ok h hwindow hfree hfits
        exact ⟨r', by rw [restore_next hid hfits, hreg]; rfl⟩

theorem Indexed.restore (h : r.Indexed) (hr : r.restore record = .ok r') : r'.Indexed := by
  rcases restore_cases hr with ⟨ho, -⟩ | ⟨hr, -⟩
  · exact h.overwrite ho
  · exact h.register hr

/-! ## A list of records -/

/-- One handle for each path and no handle left out. -/
structure Fit (records : List AccountRecord) : Prop where
  windows : ∀ a ∈ records, a.account.closedEarly = none
  bound : ∀ a ∈ records, ∀ b ∈ records, a.id = b.id ↔ a.account.path = b.account.path
  dense : ∀ a ∈ records, ∀ i < a.id.index, ∃ b ∈ records, b.id.index = i

/-- What the registry has of the records restored into it. -/
structure Holds (records : List AccountRecord) (r : AccountRegistry) : Prop where
  indexed : r.Indexed
  windows : ∀ a ∈ records, a.account.closedEarly = none
  paths : ∀ a ∈ records, r.paths[a.id.index]? = some a.account.path
  handles : ∀ i < r.len, ∃ a ∈ records, a.id.index = i

theorem Holds.new : Holds [] .new where
  indexed := .new
  windows _ h := absurd h List.not_mem_nil
  paths _ h := absurd h List.not_mem_nil
  handles i h := absurd h (Nat.not_lt_zero i)

theorem Holds.restore (h : Holds records r) (hr : r.restore record = .ok r') : Holds (records ++ [record]) r' := by
  have hlast : ∀ a ∈ records ++ [record], a ∈ records ∨ a = record := by simp
  have hold : ∀ a ∈ records, a.id.index < r.len := fun a ha => by
    rw [← length_paths]
    exact (List.getElem?_eq_some_iff.1 (h.paths a ha)).1
  obtain ⟨hwindow, hplace⟩ := (restore_ok_iff h.indexed).1 ⟨r', hr⟩
  have hwindows : ∀ a ∈ records ++ [record], a.account.closedEarly = none := fun a ha => by
    rcases hlast a ha with ha | rfl
    · exact h.windows a ha
    · exact hwindow
  rcases restore_cases hr with ⟨ho, hheld⟩ | ⟨hr, -⟩
  · have hlt := get_isSome_iff.1 hheld
    have hpath := hplace.resolve_right fun hnext => hlt.ne hnext.1
    refine ⟨h.indexed.restore ‹_›, hwindows, fun a ha => ?_, fun i hi => ?_⟩
    · rw [ho.paths]
      rcases hlast a ha with ha | rfl
      · exact h.paths a ha
      · exact hpath
    · rw [← length_paths, ho.paths, length_paths] at hi
      obtain ⟨a, ha, hid⟩ := h.handles i hi
      exact ⟨a, List.mem_append_left _ ha, hid⟩
  · have hid := hr.handle
    refine ⟨h.indexed.restore ‹_›, hwindows, fun a ha => ?_, fun i hi => ?_⟩
    · rw [hr.paths]
      rcases hlast a ha with ha | rfl
      · rw [List.getElem?_append_left (by rw [length_paths]; exact hold a ha), h.paths a ha]
      · rw [hid, ← length_paths, List.getElem?_concat_length]
    · rw [← length_paths, hr.paths, List.length_append, length_paths, List.length_singleton] at hi
      rcases Nat.lt_succ_iff_lt_or_eq.1 hi with hi | rfl
      · obtain ⟨a, ha, hai⟩ := h.handles i hi
        exact ⟨a, List.mem_append_left _ ha, hai⟩
      · exact ⟨record, by simp, hid⟩

/-- Restored records fit: the paths of a registry are distinct. -/
theorem Holds.fit (h : Holds records r) : Fit records := by
  have hhandle : ∀ a ∈ records, r.index.get? a.account.path = some a.id := fun a ha =>
    (h.indexed.index _ _).2 (h.paths a ha)
  refine ⟨h.windows, fun a ha b hb => ⟨fun hid => ?_, fun hpath => ?_⟩, fun a ha i hi => ?_⟩
  · have hpath := h.paths a ha
    rw [hid, h.paths b hb] at hpath
    exact (Option.some.inj hpath).symm
  · have hid := hhandle a ha
    rw [hpath, hhandle b hb] at hid
    exact (Option.some.inj hid).symm
  · have hlt := (List.getElem?_eq_some_iff.1 (h.paths a ha)).1
    rw [length_paths] at hlt
    exact h.handles i (hi.trans hlt)

theorem holds_of_foldlM (h : records.foldlM restore new = .ok r) : Holds records r := by
  induction records using List.reverseRecOn generalizing r with
  | nil =>
    cases h
    exact .new
  | append_singleton records record ih =>
    rw [List.foldlM_append] at h
    obtain ⟨q, hq, hlast⟩ := bind_eq_ok.1 h
    obtain ⟨q', hrestore, hpure⟩ := bind_eq_ok.1 hlast
    cases hpure
    exact (ih hq).restore hrestore

/-- The records before the last of sorted ones fit. -/
theorem Fit.init (h : Fit (records ++ [record])) (hsorted : ∀ a ∈ records, a.id.index ≤ record.id.index) : Fit records := by
  have hmem : ∀ a ∈ records, a ∈ records ++ [record] := fun a ha => List.mem_append_left _ ha
  refine ⟨fun a ha => h.windows a (hmem a ha), fun a ha b hb => h.bound a (hmem a ha) b (hmem b hb), fun a ha i hi => ?_⟩
  obtain ⟨b, hb, hid⟩ := h.dense a (hmem a ha) i hi
  rcases List.mem_append.1 hb with hb | hb
  · exact ⟨b, hb, hid⟩
  · rw [List.mem_singleton.1 hb] at hid
    have := hsorted a ha
    omega

/-- **Sorted records are restored if and only if they fit.** -/
theorem foldlM_restore_iff (hsorted : records.Pairwise fun a b => a.id.index ≤ b.id.index) :
    (∃ r, records.foldlM restore new = .ok r) ↔ Fit records := by
  refine ⟨fun ⟨r, h⟩ => (holds_of_foldlM h).fit, fun h => ?_⟩
  induction records using List.reverseRecOn with
  | nil => exact ⟨new, rfl⟩
  | append_singleton records record ih =>
    rw [List.pairwise_append] at hsorted
    have hlast : ∀ a ∈ records, a.id.index ≤ record.id.index := fun a ha => hsorted.2.2 a ha record (by simp)
    have hmem : ∀ a ∈ records, a ∈ records ++ [record] := fun a ha => List.mem_append_left _ ha
    obtain ⟨r, hr⟩ := ih hsorted.1 (h.init hlast)
    have hholds := holds_of_foldlM hr
    have hplace : r.paths[record.id.index]? = some record.account.path ∨
        record.id.index = r.len ∧ record.account.path ∉ r.paths := by
      by_cases hlt : record.id.index < r.len
      · obtain ⟨a, ha, hid⟩ := hholds.handles _ hlt
        have hsame := (h.bound a (hmem a ha) record (by simp)).1 (AccountId.ext hid)
        exact .inl (by rw [← hid, ← hsame]; exact hholds.paths a ha)
      · -- a handle past the next one would leave the next one out
        have hnext : record.id.index = r.len := by
          by_contra hne
          obtain ⟨a, ha, hid⟩ := h.dense record (by simp) r.len (by omega)
          rcases List.mem_append.1 ha with ha | ha
          · have hget := (List.getElem?_eq_some_iff.1 (hholds.paths a ha)).1
            rw [length_paths] at hget
            omega
          · rw [List.mem_singleton.1 ha] at hid
            exact hne hid
        refine .inr ⟨hnext, fun hpath => ?_⟩
        obtain ⟨i, hi, hget⟩ := List.getElem_of_mem hpath
        rw [length_paths] at hi
        obtain ⟨a, ha, hid⟩ := hholds.handles i hi
        have hat := hholds.paths a ha
        rw [hid, List.getElem?_eq_some_iff.2 ⟨_, hget⟩, Option.some.injEq] at hat
        have hsame := (h.bound a (hmem a ha) record (by simp)).2 hat.symm
        rw [← hid, hsame, hnext] at hi
        exact hi.false
    obtain ⟨r', hr'⟩ := (restore_ok_iff hholds.indexed).2 ⟨h.windows record (by simp), hplace⟩
    refine ⟨r', ?_⟩
    rw [List.foldlM_append]
    exact bind_eq_ok.2 ⟨r, hr, bind_eq_ok.2 ⟨r', hr', rfl⟩⟩

/-! ## Any order -/

theorem fit_perm {other : List AccountRecord} (h : records.Perm other) : Fit records ↔ Fit other := by
  have hmem : ∀ a, a ∈ records ↔ a ∈ other := fun a => h.mem_iff
  constructor
  · intro ⟨hw, hb, hd⟩
    simp only [hmem] at hw hb hd
    exact ⟨hw, hb, hd⟩
  · intro ⟨hw, hb, hd⟩
    simp only [← hmem] at hw hb hd
    exact ⟨hw, hb, hd⟩

theorem sorted_insertionSort (records : List AccountRecord) :
    (records.insertionSort fun a b => a.id.index ≤ b.id.index).Pairwise fun a b => a.id.index ≤ b.id.index := by
  have : Std.Total fun a b : AccountRecord => a.id.index ≤ b.id.index := ⟨fun a b => le_total _ _⟩
  have : IsTrans AccountRecord fun a b => a.id.index ≤ b.id.index := ⟨fun _ _ _ => le_trans⟩
  exact List.pairwise_insertionSort _ _

theorem fromRecords_ok_iff : (∃ r, fromRecords records = .ok r) ↔ Fit records :=
  (foldlM_restore_iff (sorted_insertionSort records)).trans (fit_perm (List.perm_insertionSort _ _))

/-- What `from_records` asks for: the handles are `0..n` once each, no path is shared and
no window closes before it opens. -/
structure Dense (records : List AccountRecord) : Prop where
  handles : (records.map (·.id.index)).Perm (List.range records.length)
  paths : (records.map (·.account.path)).Nodup
  windows : ∀ a ∈ records, a.account.closedEarly = none

/-- Records that fit, with a handle that two of them have. -/
structure Repeats (records : List AccountRecord) : Prop where
  fit : Fit records
  twice : ¬ (records.map (·.id)).Nodup

/-- Distinct numbers without a gap are the first ones. -/
theorem perm_range_of_dense {is : List Nat} (hnodup : is.Nodup) (hdense : ∀ i ∈ is, ∀ j < i, j ∈ is) :
    is.Perm (List.range is.length) := by
  have hlt : ∀ i ∈ is, i < is.length := fun i hi => by
    have hsub : List.range (i + 1) ⊆ is := fun j hj => by
      rcases Nat.lt_succ_iff_lt_or_eq.1 (List.mem_range.1 hj) with hj | rfl
      · exact hdense i hi j hj
      · exact hi
    have hle := (List.subperm_of_subset List.nodup_range hsub).length_le
    rwa [List.length_range] at hle
  have hsub : is ⊆ List.range is.length := fun i hi => List.mem_range.2 (hlt i hi)
  exact (List.subperm_of_subset hnodup hsub).perm_of_length_le (by simp)

theorem dense_iff : Dense records ↔ Fit records ∧ (records.map (·.id)).Nodup := by
  have hindices : records.map (·.id.index) = (records.map (·.id)).map AccountId.index := by
    rw [List.map_map]
    rfl
  have hindex : Function.Injective AccountId.index := fun a b h => AccountId.ext h
  constructor
  · intro h
    have hids : (records.map (·.id)).Nodup := by
      have hnodup := h.handles.nodup_iff.2 List.nodup_range
      rw [hindices] at hnodup
      exact hnodup.of_map _
    refine ⟨⟨h.windows, fun a ha b hb => ?_, fun a ha i hi => ?_⟩, hids⟩
    · have hid := List.inj_on_of_nodup_map hids ha hb
      have hpath := List.inj_on_of_nodup_map h.paths ha hb
      exact ⟨fun h => congrArg (·.account.path) (hid h), fun h => congrArg (·.id) (hpath h)⟩
    · have hmem := h.handles.mem_iff.1 (List.mem_map_of_mem (f := (·.id.index)) ha)
      rw [List.mem_range] at hmem
      obtain ⟨b, hb, hbi⟩ := List.mem_map.1 (h.handles.mem_iff.2 (List.mem_range.2 (hi.trans hmem)))
      exact ⟨b, hb, hbi⟩
  · intro ⟨h, hids⟩
    have hrecords : ∀ a ∈ records, ∀ b ∈ records, a.id = b.id → a = b := fun a ha b hb => List.inj_on_of_nodup_map hids ha hb
    refine ⟨?_, ?_, h.windows⟩
    · rw [← List.length_map (fun a : AccountRecord => a.id.index)]
      refine perm_range_of_dense (by rw [hindices]; exact hids.map hindex) fun i hi j hj => ?_
      obtain ⟨a, ha, rfl⟩ := List.mem_map.1 hi
      obtain ⟨b, hb, rfl⟩ := h.dense a ha j hj
      exact List.mem_map_of_mem hb
    · exact (hids.of_map _).map_on fun a ha b hb hpath => hrecords a ha b hb ((h.bound a ha b hb).2 hpath)

theorem insertionSort_of_perm (h : records.Perm r.records) :
    (records.insertionSort fun a b => a.id.index ≤ b.id.index) = r.records := by
  refine List.Perm.eq_of_pairwise (fun a b ha hb hab hba => ?_) (sorted_insertionSort records)
    ((increasing_recordsOf r.bounded).imp le_of_lt) ((List.perm_insertionSort _ _).trans h)
  have hid : a.id = b.id := AccountId.ext (hab.antisymm hba)
  have hat := mem_records.1 (h.mem_iff.1 ((List.mem_insertionSort _).1 ha))
  rw [hid, mem_records.1 hb, Option.some.injEq] at hat
  cases a
  cases b
  simp only at hid hat
  rw [hid, hat]

/-- **`from_records` keeps its promise for every list but one that repeats a handle and
otherwise fits**, and a permutation of the records of a registry rebuilds it. -/
theorem fromRecords_iff (records : List AccountRecord) :
    (((∃ r, fromRecords records = .ok r) ↔ Dense records) ↔ ¬ Repeats records) ∧
    ∀ ks r, calls.Run new ks r → records.Perm r.records → fromRecords records = .ok r := by
  refine ⟨?_, fun ks r hrun hperm => ?_⟩
  · rw [fromRecords_ok_iff, dense_iff]
    constructor
    · exact fun h hr => hr.twice (h.1 hr.fit).2
    · exact fun h => ⟨fun hfit => ⟨hfit, by_contra fun ht => h ⟨hfit, ht⟩⟩, And.left⟩
  · have hreachable : calls.Reachable r := ⟨new, ks, rfl, hrun⟩
    have hrecords := (indexed_inductive.reachable hreachable).fromRecords_records (windowed_inductive.reachable hreachable)
    rwa [fromRecords, insertionSort_of_perm (List.Perm.refl r.records), ← insertionSort_of_perm hperm] at hrecords

/-- The first account once more. -/
def rentTwice : List AccountRecord := firstOnly.records ++ firstOnly.records

/-- Both records are taken, and one account is registered. -/
theorem rentTwice_restored : (fromRecords rentTwice).toOption.map len = some 1 ∧ rentTwice.length = 2 ∧
    ¬ ∀ records, (∃ r, fromRecords records = .ok r) ↔ Dense records := by
  have hone : (fromRecords rentTwice).toOption.map len = some 1 := by decide
  refine ⟨hone, by decide, fun h => ?_⟩
  obtain ⟨r, hr, -⟩ := Option.map_eq_some_iff.1 hone
  have hnodup := ((h rentTwice).1 ⟨r, toOption_eq_some.1 hr⟩).paths
  exact absurd hnodup (by decide)

end AccountRegistry

end DoubleEntry.L3
