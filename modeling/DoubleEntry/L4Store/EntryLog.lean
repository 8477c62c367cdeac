import DoubleEntry.L4Store.EntryTable

/-!
# The log in the tables

The sequenced rows of `entries` are a log: positions are dense, each `tree_root`
is the root of the log up to its row, and `log_subtrees` covers it
(`Tables.LogInv`). What the stores read from the rows is a function of that log:

* the next position, the number of leaves and the head (`nextIndex_eq`,
  `sequencedCount_eq`, `head_eq`);
* the span of a period (`span_eq`) and the trial balance through a date
  (`trialBalance_eq_ok`), where the SQL of the backend orders the dates.

An append and a sequencing pass extend the log (`append_spec`, `sequence_spec`);
a deferred append leaves it alone (`commitBatch_spec`).

**Results.**
* `sumByKey_eq_ok`: a grouped sum is the totals of its rows, when every sum fits.
* `RowsOf.insertPlaced`, `RowsOf.insertUnplaced`, `RowsOf.updatePlaced`: what one write does to
  the log.
* `Tables.storesDate_of_trialBalance`: a trial balance through a date was bound to that date.
-/
namespace DoubleEntry.L4

open DoubleEntry.Core DoubleEntry.L1 DoubleEntry.L2 DoubleEntry.L3

variable {H : Type} {P : Scale}

/-! ## Sums -/

namespace Tables

theorem sumRow_eq_ok {ps : List (Posting P)} {key : BalanceKey} {b : Balance P} :
    sumRow ps key = .ok b ↔ ∀ d, b.side d = gross d key ps := by
  unfold sumRow
  constructor
  · intro h d
    split at h
    · rename_i debits credits hd hc
      cases h
      cases d
      · exact Amount.checked_eq_ok.1 hd
      · exact Amount.checked_eq_ok.1 hc
    · cases h
  · intro h
    rw [Amount.checked_eq_ok.2 (h .debit), Amount.checked_eq_ok.2 (h .credit)]

theorem foldlM_sumRow {ps : List (Posting P)} {ks : List BalanceKey} :
    ∀ {tb₀ tb : TrialBalance P},
      ks.foldlM (fun tb key => (sumRow ps key).map fun b => (⟨tb.entries.insert key b⟩ : TrialBalance P)) tb₀ = .ok tb →
      ∀ key, (key ∈ ks → ∃ b, sumRow ps key = .ok b ∧ tb.get key = some b) ∧ (key ∉ ks → tb.get key = tb₀.get key) := by
  induction ks with
  | nil =>
    intro tb₀ tb h key
    cases h
    simp
  | cons k ks ih =>
    intro tb₀ tb h key
    rw [List.foldlM_cons] at h
    obtain ⟨tb₁, h₁, h⟩ := bind_eq_ok.1 h
    obtain ⟨b, hb, rfl⟩ := map_eq_ok.1 h₁
    obtain ⟨hin, hout⟩ := ih h key
    by_cases hk : key ∈ ks
    · exact ⟨fun _ => hin hk, fun hn => absurd (List.mem_cons_of_mem _ hk) hn⟩
    · have hget : tb.get key = if k = key then some b else tb₀.get key := (hout hk).trans OrdMap.get?_insert
      refine ⟨fun hm => ?_, fun hn => ?_⟩
      · obtain rfl : key = k := (List.mem_cons.1 hm).resolve_right hk
        exact ⟨b, hb, by rw [hget, if_pos rfl]⟩
      · have hne : k ≠ key := fun e => by
          subst e
          exact hn List.mem_cons_self
        rw [hget, if_neg hne]

/-- **The grouped sums are the totals**, when every sum fits. -/
theorem sumByKey_eq_ok {ps : List (Posting P)} {tb : TrialBalance P} : sumByKey ps = .ok tb ↔ Totals ps tb := by
  have totals : ∀ {tb : TrialBalance P}, sumByKey ps = .ok tb → Totals ps tb := by
    intro tb h
    have hf := foldlM_sumRow h
    have hmem : ∀ key, key ∈ ps.map Posting.key ↔ Touches ps key := fun key => List.mem_map
    constructor
    · intro key
      rw [← hmem]
      by_cases hk : key ∈ ps.map Posting.key
      · obtain ⟨b, -, hb⟩ := (hf key).1 hk
        simp [hb, hk]
      · rw [(hf key).2 hk]
        simp [hk, TrialBalance.get, TrialBalance.new]
    · intro key d
      unfold TrialBalance.getOrZero
      by_cases hk : key ∈ ps.map Posting.key
      · obtain ⟨b, hs, hb⟩ := (hf key).1 hk
        rw [hb]
        exact sumRow_eq_ok.1 hs d
      · rw [(hf key).2 hk]
        have hnil : ps.filter (fun p => p.key = key ∧ p.direction = d) = [] :=
          List.filter_eq_nil_iff.2 fun p hp => by
            have : p.key ≠ key := fun e => hk (List.mem_map.2 ⟨p, hp, e⟩)
            simp [this]
        rw [gross, hnil]
        exact Balance.side_zero d
  refine ⟨totals, fun h => ?_⟩
  have hok : ∀ (ks : List BalanceKey) (tb₀ : TrialBalance P), ∃ tb',
      ks.foldlM (fun tb key => (sumRow ps key).map fun b => (⟨tb.entries.insert key b⟩ : TrialBalance P)) tb₀ = .ok tb' := by
    intro ks
    induction ks with
    | nil => exact fun tb₀ => ⟨tb₀, rfl⟩
    | cons k ks ih =>
      intro tb₀
      have hk : sumRow ps k = .ok (tb.getOrZero k) := sumRow_eq_ok.2 (h.side k)
      obtain ⟨tb', h'⟩ := ih ⟨tb₀.entries.insert k (tb.getOrZero k)⟩
      exact ⟨tb', by rw [List.foldlM_cons, hk]; exact h'⟩
  obtain ⟨tb', h'⟩ := hok _ _
  rw [show sumByKey ps = .ok tb' from h', (totals h').unique h]
end Tables

/-! ## Positions of a date range -/

/-- The positions of the entries booked in a range. -/
def positions (entries : List (Entry H .balanced P)) (start stop : Date) : List Nat :=
  (entries.zipIdx.filter fun x => start ≤ x.1.bookingDate ∧ x.1.bookingDate ≤ stop).map Prod.snd

theorem positions_concat (l : List (Entry H .balanced P)) (e : Entry H .balanced P) (start stop : Date) :
    positions (l ++ [e]) start stop =
      positions l start stop ++ if start ≤ e.bookingDate ∧ e.bookingDate ≤ stop then [l.length] else [] := by
  unfold positions
  rw [List.zipIdx_append, List.filter_append, List.map_append]
  by_cases h : start ≤ e.bookingDate ∧ e.bookingDate ≤ stop <;> simp [h]

theorem positions_lt {l : List (Entry H .balanced P)} {start stop : Date} {n : Nat}
    (h : n ∈ positions l start stop) : n < l.length := by
  obtain ⟨x, hx, rfl⟩ := List.mem_map.1 h
  have := (List.mem_zipIdx_iff_getElem?.1 (List.mem_filter.1 hx).1)
  exact (List.getElem?_eq_some_iff.1 this).1

theorem positions_increasing (l : List (Entry H .balanced P)) (start stop : Date) :
    (positions l start stop).Pairwise (· < ·) := by
  induction l using List.reverseRecOn with
  | nil => exact .nil
  | append_singleton l e ih =>
    rw [positions_concat]
    refine List.pairwise_append.2 ⟨ih, by split <;> simp, fun a ha b hb => ?_⟩
    split at hb
    · rw [List.mem_singleton.1 hb]
      exact positions_lt ha
    · cases hb

/-- The coverage of a list is its first position, its last and how many there are. -/
theorem coverageOf_eq (l : List (Entry H .balanced P)) (start stop : Date) : coverageOf l start stop =
    ⟨(positions l start stop).head?, (positions l start stop).getLast?, (positions l start stop).length⟩ := by
  induction l using List.reverseRecOn with
  | nil => rfl
  | append_singleton l e ih =>
    have hstep : coverageOf (l ++ [e]) start stop = coverEntry start stop (coverageOf l start stop) (e, l.length) := by
      simp [coverageOf, List.zipIdx_append]
    rw [hstep, ih, positions_concat, coverEntry]
    by_cases h : start ≤ e.bookingDate ∧ e.bookingDate ≤ stop
    · simp [h, List.head?_append]
    · simp [h]

/-- The least element of a list that permutes an increasing one. -/
theorem min?_of_perm {l l' : List Nat} (hp : l.Perm l') (hs : l'.Pairwise (· < ·)) : l.min? = l'.head? := by
  cases l' with
  | nil => rw [hp.eq_nil]; rfl
  | cons a l' =>
    refine List.min?_eq_some_iff.2 ⟨hp.mem_iff.2 List.mem_cons_self, fun b hb => ?_⟩
    rcases List.mem_cons.1 (hp.mem_iff.1 hb) with rfl | hb
    · exact le_rfl
    · exact (List.rel_of_pairwise_cons hs hb).le

theorem max?_of_perm {l l' : List Nat} (hp : l.Perm l') (hs : l'.Pairwise (· < ·)) : l.max? = l'.getLast? := by
  induction l' using List.reverseRecOn with
  | nil => rw [hp.eq_nil]; rfl
  | append_singleton l' a _ =>
    rw [List.getLast?_concat]
    refine List.max?_eq_some_iff.2 ⟨hp.mem_iff.2 (by simp), fun b hb => ?_⟩
    rcases List.mem_append.1 (hp.mem_iff.1 hb) with hb | hb
    · exact ((List.pairwise_append.1 hs).2.2 b hb a (by simp)).le
    · exact (List.mem_singleton.1 hb).le

/-! ## Numbered leaves -/

section
variable [Blake3 H]

def hashes (log : List (Logged H P)) : List H := log.map (·.contentHash)

/-- Every leaf with its position and the root of the log up to it. -/
def numbered (log : List (Logged H P)) : List ((Nat × H) × Logged H P) :=
  log.zipIdx.map fun x => ((x.2, mth (hashes (log.take (x.2 + 1)))), x.1)

theorem numbered_concat (log : List (Logged H P)) (x : Logged H P) :
    numbered (log ++ [x]) = numbered log ++ [((log.length, mth (hashes (log ++ [x]))), x)] := by
  unfold numbered
  rw [List.zipIdx_append, List.map_append]
  congr 1
  · refine List.map_congr_left fun y hy => ?_
    have hlt : y.2 < log.length := by
      have := List.mem_zipIdx_iff_getElem?.1 hy
      exact (List.getElem?_eq_some_iff.1 this).1
    rw [List.take_append_of_le_length (by omega)]
  · have htake : (log ++ [x]).take (log.length + 1) = log ++ [x] := List.take_of_length_le (by simp)
    simp [htake]

theorem positions_numbered (log : List (Logged H P)) : (numbered log).map (·.1.1) = List.range log.length := by
  induction log using List.reverseRecOn with
  | nil => rfl
  | append_singleton log x ih =>
    rw [numbered_concat, List.map_append, ih, List.length_append, List.length_singleton, List.range_succ]
    rfl

theorem leaves_numbered (log : List (Logged H P)) : (numbered log).map Prod.snd = log := by
  rw [numbered, List.map_map]
  exact List.zipIdx_map_fst 0 log

/-! ## The log in the rows -/

omit [Blake3 H] in
/-- The rows with a position, as numbered leaves. -/
def placedRows (rows : List (EntryRow H P)) : List ((Nat × H) × Logged H P) :=
  rows.filterMap fun r => r.placed.map fun p => (p, r.toLogged)

/-- The rows with a position are the leaves of `log`, each at its place and with
the root up to it. -/
def LogOf (rows : List (EntryRow H P)) (log : List (Logged H P)) : Prop := (placedRows rows).Perm (numbered log)

omit [Blake3 H] in
theorem placed_eq (rows : List (EntryRow H P)) : rows.filterMap (·.placed) = (placedRows rows).map Prod.fst := by
  unfold placedRows
  rw [List.map_filterMap]
  refine List.filterMap_congr fun r _ => ?_
  cases r.placed <;> rfl

omit [Blake3 H] in
theorem placedRows_append (rows rows' : List (EntryRow H P)) :
    placedRows (rows ++ rows') = placedRows rows ++ placedRows rows' := List.filterMap_append

omit [Blake3 H] in
/-- Rows kept by a test on the entry. -/
theorem placedRows_filter (rows : List (EntryRow H P)) (f : Entry H .balanced P → Bool) :
    placedRows (rows.filter fun r => f r.entry) = (placedRows rows).filter fun x => f x.2.entry := by
  induction rows with
  | nil => rfl
  | cons r rows ih =>
    unfold placedRows at ih ⊢
    cases hp : r.placed <;> cases hf : f r.entry <;> simp [hp, hf, ih]

omit [Blake3 H] in
/-- The entries of the sequenced rows that pass the test. -/
theorem placedRows_sequenced (rows : List (EntryRow H P)) (f : Entry H .balanced P → Bool) :
    (rows.filter fun r => r.placed.isSome && f r.entry).map (·.entry) =
      ((placedRows rows).filter fun x => f x.2.entry).map (·.2.entry) := by
  induction rows with
  | nil => rfl
  | cons r rows ih =>
    unfold placedRows at ih ⊢
    cases hp : r.placed <;> cases hf : f r.entry <;> simp [hp, hf, ih]

section
variable {rows : List (EntryRow H P)} {log : List (Logged H P)}

theorem LogOf.indices (h : LogOf rows log) :
    ((rows.filterMap (·.placed)).map Prod.fst).Perm (List.range log.length) := by
  rw [placed_eq, List.map_map, ← positions_numbered]
  exact h.map _

theorem LogOf.concat (h : LogOf rows log) {r : EntryRow H P}
    (hr : r.placed = some (log.length, mth (hashes (log ++ [r.toLogged])))) :
    LogOf (rows ++ [r]) (log ++ [r.toLogged]) := by
  unfold LogOf
  rw [placedRows_append, numbered_concat]
  refine List.Perm.append h ?_
  simp [placedRows, hr]

theorem LogOf.unplaced (h : LogOf rows log) {r : EntryRow H P} (hr : r.placed = none) : LogOf (rows ++ [r]) log := by
  unfold LogOf
  have hnil : placedRows [r] = [] := by simp [placedRows, hr]
  rw [placedRows_append, hnil, List.append_nil]
  exact h

theorem LogOf.update (h : LogOf rows log) (hu : (rows.map (·.entry.id)).Nodup) {r : EntryRow H P} (hm : r ∈ rows)
    (hn : r.placed = none) {p : Nat × H} (hp : p = (log.length, mth (hashes (log ++ [r.toLogged])))) :
    LogOf (rows.map fun x => if x.entry.id = r.entry.id then { x with placed := some p } else x)
      (log ++ [r.toLogged]) := by
  obtain ⟨before, later, rfl⟩ := List.append_of_mem hm
  rw [List.map_append, List.map_cons, List.nodup_append, List.nodup_cons] at hu
  obtain ⟨-, ⟨hlater, -⟩, hbefore⟩ := hu
  -- no other row has the identifier
  have keep : ∀ l : List (EntryRow H P), (∀ x ∈ l, x.entry.id ≠ r.entry.id) →
      l.map (fun x => if x.entry.id = r.entry.id then { x with placed := some p } else x) = l := fun l hl => by
    refine (List.map_congr_left fun x hx => ?_).trans (List.map_id l)
    exact if_neg (hl x hx)
  have hb := keep before fun x hx => hbefore _ (List.mem_map_of_mem hx) _ List.mem_cons_self
  have hl := keep later fun x hx e => hlater (e ▸ List.mem_map_of_mem hx)
  unfold LogOf at h ⊢
  rw [List.map_append, List.map_cons, hb, hl, if_pos rfl, numbered_concat, ← hp, placedRows_append]
  rw [placedRows_append] at h
  have hcons : placedRows (r :: later) = placedRows later := by simp [placedRows, hn]
  have hcons' : placedRows ({ r with placed := some p } :: later) = (p, r.toLogged) :: placedRows later := by
    simp [placedRows]
  rw [hcons] at h
  rw [hcons']
  exact (List.perm_middle.trans (List.perm_append_singleton _ _).symm).trans (h.append_right _)

end

end

/-! ## Reads -/

namespace Tables

variable [Blake3 H] {t : Tables H P} {log : List (Logged H P)}

theorem nextIndex_eq (h : LogOf t.entries log) : t.nextIndex = log.length := by
  have hmax := max?_of_perm h.indices List.pairwise_lt_range
  rw [nextIndex, hmax]
  cases hl : log.length with
  | zero => rfl
  | succ n => simp [List.range_succ]

theorem sequencedCount_eq (h : LogOf t.entries log) : t.sequencedCount = log.length := by
  have := h.indices.length_eq
  simpa [sequencedCount] using this

/-- The head read from the last row is the head of the log. -/
theorem head_eq (h : LogOf t.entries log) : t.head = ⟨log.length, mth (hashes log)⟩ := by
  have hp : (t.entries.filterMap (·.placed)).Perm ((numbered log).map Prod.fst) := by
    rw [placed_eq]
    exact h.map _
  unfold head
  cases log using List.reverseRecOn with
  | nil =>
    have hnil : t.entries.filterMap (·.placed) = [] := hp.eq_nil
    rw [hnil]
    rfl
  | append_singleton log x =>
    rw [numbered_concat, List.map_append] at hp
    have hmem : (log.length, mth (hashes (log ++ [x]))) ∈ t.entries.filterMap (·.placed) := hp.mem_iff.2 (by simp)
    have hmax : ∀ y ∈ t.entries.filterMap (·.placed), y = (log.length, mth (hashes (log ++ [x]))) ∨ y.1 < log.length := by
      intro y hy
      rcases List.mem_append.1 (hp.mem_iff.1 hy) with hy | hy
      · obtain ⟨z, hz, rfl⟩ := List.mem_map.1 hy
        have : z.1.1 ∈ (numbered log).map (·.1.1) := List.mem_map_of_mem (f := (·.1.1)) hz
        rw [positions_numbered, List.mem_range] at this
        exact .inr this
      · exact .inl (by simpa using hy)
    cases harg : (t.entries.filterMap (·.placed)).argmax Prod.fst with
    | none =>
      rw [List.argmax_eq_none.1 harg] at hmem
      cases hmem
    | some y =>
      have hle : log.length ≤ y.1 := List.le_of_mem_argmax hmem harg
      obtain rfl := (hmax y (List.argmax_mem harg)).resolve_right (by omega)
      simp

/-- The rows in the order of `log_index`. -/
theorem ordered_eq (h : LogOf t.entries log) :
    (t.entries.filterMap fun r => r.placed.map fun p => (p.1, r.toLogged)).insertionSort (fun a b => a.1 ≤ b.1) =
      (numbered log).map fun x => (x.1.1, x.2) := by
  have hmap : (t.entries.filterMap fun r => r.placed.map fun p => (p.1, r.toLogged)) =
      (placedRows t.entries).map fun x => (x.1.1, x.2) := by
    unfold placedRows
    rw [List.map_filterMap]
    refine List.filterMap_congr fun r _ => ?_
    cases r.placed <;> rfl
  have hsorted : ((numbered log).map fun x => (x.1.1, x.2)).Pairwise fun a b => a.1 < b.1 := by
    have := List.pairwise_map.1 (positions_numbered log ▸ List.pairwise_lt_range)
    exact List.pairwise_map.2 this
  have hp := ((List.perm_insertionSort (fun (a b : Nat × Logged H P) => a.1 ≤ b.1) _).trans (h.map fun x => (x.1.1, x.2)))
  have hle : ∀ a b : Nat × Logged H P, a ∈ ((placedRows t.entries).map fun x => (x.1.1, x.2)).insertionSort (fun a b => a.1 ≤ b.1) →
      b ∈ (numbered log).map (fun x => (x.1.1, x.2)) → a.1 ≤ b.1 → b.1 ≤ a.1 → a = b := ?_
  · rw [hmap]
    exact hp.eq_of_pairwise hle (List.pairwise_insertionSort _ _) (hsorted.imp le_of_lt)
  intro a b ha hb hab hba
  obtain ⟨i, hi, rfl⟩ := List.getElem_of_mem (hp.mem_iff.1 ha)
  obtain ⟨j, hj, rfl⟩ := List.getElem_of_mem hb
  rcases lt_trichotomy i j with hlt | rfl | hlt
  · exact absurd (List.pairwise_iff_getElem.1 hsorted i j hi hj hlt) (by omega)
  · rfl
  · exact absurd (List.pairwise_iff_getElem.1 hsorted j i hj hi hlt) (by omega)

/-- The rows in the order of `log_index` are the log. -/
theorem log_eq (h : LogOf t.entries log) : t.log = log := by
  rw [Tables.log, ordered_eq h, List.map_map]
  exact leaves_numbered log

/-- The span statement computes the coverage of the log. -/
theorem span_eq {B : Backend} (h : LogOf t.entries log) {start stop : Date} (hstart : B.Unsigned start)
    (hstop : B.Unsigned stop) (ho : ∀ r ∈ t.entries, B.Unsigned r.entry.bookingDate) :
    t.span B.dialect start stop = coverageOf (log.map (·.entry)) start stop := by
  have hfilter : (t.entries.filter fun r =>
      B.dialect.dateLE start r.entry.bookingDate && B.dialect.dateLE r.entry.bookingDate stop) =
      t.entries.filter fun r => decide (start ≤ r.entry.bookingDate ∧ r.entry.bookingDate ≤ stop) := by
    refine List.filter_congr fun r hr => ?_
    rw [Bool.eq_iff_iff, Bool.and_eq_true, Backend.dateLE_iff hstart (ho r hr), Backend.dateLE_iff (ho r hr) hstop,
      decide_eq_true_iff]
  have hidx : (((t.entries.filter fun r => B.dialect.dateLE start r.entry.bookingDate &&
      B.dialect.dateLE r.entry.bookingDate stop).filterMap (·.placed)).map Prod.fst).Perm
      (positions (log.map (·.entry)) start stop) := by
    rw [hfilter, placed_eq, placedRows_filter t.entries fun e => decide (start ≤ e.bookingDate ∧ e.bookingDate ≤ stop),
      List.map_map]
    refine ((h.filter _).map _).trans (List.Perm.of_eq ?_)
    simp [numbered, positions, List.filter_map, List.zipIdx_map, Function.comp_def]
  simp only [span]
  rw [coverageOf_eq, hidx.length_eq, min?_of_perm hidx (positions_increasing _ _ _),
    max?_of_perm hidx (positions_increasing _ _ _)]

/-- The entries the trial balance is summed over are those of the log. -/
theorem sequencedThrough_perm {B : Backend} (h : LogOf t.entries log) {stop : Date} (hstop : B.Unsigned stop)
    (ho : ∀ r ∈ t.entries, B.Unsigned r.entry.bookingDate) :
    ((t.sequencedThrough B.dialect stop).flatMap (·.entry.postings)).Perm
      (postingsOf (through stop (log.map (·.entry)))) := by
  have hseq : (t.sequencedThrough B.dialect stop).map (·.entry) =
      ((placedRows t.entries).filter fun x => decide (x.2.entry.bookingDate ≤ stop)).map (·.2.entry) := by
    rw [← placedRows_sequenced t.entries fun e => decide (e.bookingDate ≤ stop), sequencedThrough]
    refine congrArg _ (List.filter_congr fun r hr => ?_)
    rw [Bool.eq_iff_iff, Bool.and_eq_true, Bool.and_eq_true, Backend.dateLE_iff (ho r hr) hstop, decide_eq_true_iff]
  have hperm : ((t.sequencedThrough B.dialect stop).map (·.entry)).Perm (through stop (log.map (·.entry))) := by
    rw [hseq]
    refine ((h.filter _).map _).trans (List.Perm.of_eq ?_)
    conv_rhs => rw [← leaves_numbered log]
    simp [through, List.filter_map, Function.comp_def]
  unfold postingsOf
  rw [← List.flatMap_map]
  exact hperm.flatMap_right _

end Tables

/-! ## Writes -/

section
variable [Blake3 H]

/-- The rows hold `log`; identifiers are unique and amounts positive. -/
structure RowsOf (rows : List (EntryRow H P)) (log : List (Logged H P)) : Prop where
  logOf : LogOf rows log
  unique : (rows.map (·.entry.id)).Nodup
  positive : ∀ r ∈ rows, ∀ p ∈ r.entry.postings, 0 < p.amount.minor

/-- The tail continues `log`. -/
structure TailOf (tail : Tail H) (log : List (Logged H P)) : Prop where
  nextIndex : tail.nextIndex = log.length
  covers : tail.accumulator.Covers (hashes log)

/-- The tables hold `log` and the accumulator over it. -/
structure Tables.LogInv (t : Tables H P) (log : List (Logged H P)) : Prop extends RowsOf t.entries log where
  covers : (⟨t.subtrees, log.length⟩ : MerkleAccumulator H).Covers (hashes log)

omit [Blake3 H] in
theorem hashes_concat (log : List (Logged H P)) (x : Logged H P) :
    hashes (log ++ [x]) = hashes log ++ [x.contentHash] := List.map_append

variable {t t' : Tables H P} {tail : Tail H} {log : List (Logged H P)} {x : Logged H P} {r : EntryRow H P}

theorem TailOf.push (h : TailOf tail log) : TailOf (tail.push x.contentHash) (log ++ [x]) where
  nextIndex := by rw [List.length_append, Tail.push, h.nextIndex, List.length_singleton]
  covers := by
    rw [hashes_concat]
    exact h.covers.push _

theorem TailOf.place (h : TailOf tail log) : tail.place x.contentHash = (log.length, mth (hashes (log ++ [x]))) := by
  rw [Tail.place, h.nextIndex, (h.covers.push _).root_eq, hashes_concat]

theorem Tables.tailOf (h : t.LogInv log) (ht : t.tail = .ok tail) : TailOf tail log := by
  unfold Tables.tail MerkleAccumulator.tryFromParts at ht
  split at ht
  · cases ht
  · rename_i acc hacc
    split at hacc
    · cases hacc
      cases ht
      exact ⟨t.nextIndex_eq h.logOf, by rw [t.sequencedCount_eq h.logOf]; exact h.covers⟩
    · cases hacc

/-- The tail is there, and its accumulator is the one stored. -/
theorem Tables.LogInv.tail_eq (h : t.LogInv log) (hroom : t.entries.length < 2 ^ 63) :
    t.tail = .ok ⟨log.length, t.subtrees, log.length⟩ := by
  have hcount : t.sequencedCount = log.length := t.sequencedCount_eq h.logOf
  have hlen : (hashes log).length < 2 ^ 64 := by
    have hle : t.sequencedCount ≤ t.entries.length := List.length_filterMap_le _ _
    rw [hashes, List.length_map]
    omega
  have hparts := h.covers.tryFromParts_eq hlen
  unfold tail
  rw [hcount, t.nextIndex_eq h.logOf]
  simp only [hparts]

theorem Tables.logInv_store (h : RowsOf t.entries log) (ht : TailOf tail log) :
    (t.storeAccumulator tail.accumulator).LogInv log where
  toRowsOf := h
  covers := by
    have hsize : tail.accumulator.size = log.length := by rw [ht.covers.size, hashes, List.length_map]
    rw [← hsize]
    exact ht.covers

omit [Blake3 H] in
theorem Tables.insertRow_eq_some (h : t.insertRow r = some t') : t' = { t with entries := t.entries ++ [r] } ∧
    (∀ y ∈ t.entries, y.entry.id ≠ r.entry.id) ∧ ∀ p ∈ r.entry.postings, 0 < p.amount.minor := by
  unfold Tables.insertRow at h
  split at h
  · rename_i hc
    cases h
    rw [Tables.constraintsHold, Bool.and_eq_true, List.all_eq_true, List.all_eq_true] at hc
    exact ⟨rfl, fun y hy => (of_decide_eq_true (hc.1 y hy)).1, fun p hp => (of_decide_eq_true (hc.2 p hp)).2⟩
  · cases h

omit [Blake3 H] in
theorem unique_concat {rows : List (EntryRow H P)} (hu : (rows.map (·.entry.id)).Nodup)
    (hn : ∀ y ∈ rows, y.entry.id ≠ r.entry.id) : ((rows ++ [r]).map (·.entry.id)).Nodup := nodup_map_concat hu hn

omit [Blake3 H] in
theorem positive_concat {rows : List (EntryRow H P)} (hp : ∀ r ∈ rows, ∀ p ∈ r.entry.postings, 0 < p.amount.minor)
    (hr : ∀ p ∈ r.entry.postings, 0 < p.amount.minor) :
    ∀ y ∈ rows ++ [r], ∀ p ∈ y.entry.postings, 0 < p.amount.minor := by
  intro y hy
  rcases List.mem_append.1 hy with hy | hy
  · exact hp y hy
  · rw [List.mem_singleton.1 hy]
    exact hr

/-- A row inserted at the tail extends the log. -/
theorem RowsOf.insertPlaced (h : RowsOf t.entries log) (ht : TailOf tail log) {xid : Nat}
    (hi : t.insertRow ⟨x, some (tail.place x.contentHash), xid⟩ = some t') : RowsOf t'.entries (log ++ [x]) := by
  obtain ⟨rfl, hid, hpos⟩ := Tables.insertRow_eq_some hi
  exact ⟨h.logOf.concat (r := ⟨x, some (tail.place x.contentHash), xid⟩) (by rw [ht.place]),
    unique_concat h.unique hid, positive_concat h.positive hpos⟩

/-- A row inserted without a position leaves it alone. -/
theorem RowsOf.insertUnplaced (h : RowsOf t.entries log) (hr : r.placed = none) (hi : t.insertRow r = some t') :
    RowsOf t'.entries log := by
  obtain ⟨rfl, hid, hpos⟩ := Tables.insertRow_eq_some hi
  exact ⟨h.logOf.unplaced hr, unique_concat h.unique hid, positive_concat h.positive hpos⟩

theorem RowsOf.updatePlaced (h : RowsOf t.entries log) (ht : TailOf tail log) (hm : r ∈ t.entries)
    (hn : r.placed = none) :
    RowsOf (t.updatePlaced r.entry.id (tail.place r.contentHash)).entries (log ++ [r.toLogged]) where
  logOf := h.logOf.update h.unique hm hn (by rw [ht.place])
  unique := by
    have : (t.updatePlaced r.entry.id (tail.place r.contentHash)).entries.map (·.entry.id) =
        t.entries.map (·.entry.id) := by
      rw [Tables.updatePlaced, List.map_map]
      exact List.map_congr_left fun y _ => by simp only [Function.comp]; split <;> rfl
    rw [this]
    exact h.unique
  positive := by
    intro y hy
    obtain ⟨z, hz, rfl⟩ := List.mem_map.1 hy
    split
    · exact h.positive z hz
    · exact h.positive z hz

omit [Blake3 H] in
theorem Tables.storesDate_of_trialBalance {B : Backend} {t : Tables H P} {stop : Date} {tb : TrialBalance P}
    (ok : t.trialBalanceThroughDate B.dialect stop = .ok tb) : B.storesDate stop = true := by
  by_contra h
  unfold trialBalanceThroughDate at ok
  rw [if_pos (by simpa [Backend.storesDate] using h)] at ok
  cases ok

/-- **The summed trial balance is the fold of the log**, and one is there if the other is and
the date can be bound. -/
theorem Tables.trialBalance_eq_ok {B : Backend} {stop : Date} {tb : TrialBalance P} (h : RowsOf t.entries log)
    (hstop : B.Unsigned stop) (ho : ∀ r ∈ t.entries, B.Unsigned r.entry.bookingDate) :
    t.trialBalanceThroughDate B.dialect stop = .ok tb ↔
      B.storesDate stop = true ∧ closingBalance (log.map (·.entry)) stop = .ok tb := by
  have hp := t.sequencedThrough_perm h.logOf hstop ho
  have hn : ∀ p ∈ postingsOf (through stop (log.map (·.entry))), 0 ≤ p.amount.minor := by
    intro p hm
    obtain ⟨r, hr, hpr⟩ := List.mem_flatMap.1 (hp.mem_iff.2 hm)
    exact (h.positive r (List.mem_filter.1 hr).1 p hpr).le
  have hsum : Tables.sumByKey ((t.sequencedThrough B.dialect stop).flatMap (·.entry.postings)) = .ok tb ↔
      closingBalance (log.map (·.entry)) stop = .ok tb := by
    rw [Tables.sumByKey_eq_ok]
    constructor
    · intro ht
      exact applyAll_of_totals hn (ht.perm hp)
    · intro hc
      exact (totals_of_applyAll hc).perm hp.symm
  unfold Tables.trialBalanceThroughDate Backend.storesDate
  cases B.dialect.storesDate stop with
  | false => simp
  | true => simpa using hsum

end

/-! ## What a call adds -/

section
variable [Blake3 H] [DecidableEq H]

/-- A row for an entry of the batch whose key was not on file. -/
def NewRow (B : Backend) (t : Tables H P) (batch : List (Entry H .balanced P)) (r : EntryRow H P) : Prop :=
  ∃ e ∈ batch, r.toLogged = ⟨B.stored e, e.contentHash⟩ ∧ ∀ y ∈ t.entries, y.entry.idempotencyKey ≠ e.idempotencyKey

omit [DecidableEq H] in
theorem NewRow.mono {B : Backend} {t t' : Tables H P} {batch batch' : List (Entry H .balanced P)} {r : EntryRow H P}
    (h : NewRow B t' batch' r) (ht : ∀ y ∈ t.entries, y ∈ t'.entries) (hb : ∀ e ∈ batch', e ∈ batch) :
    NewRow B t batch r := by
  obtain ⟨e, he, hr, hk⟩ := h
  exact ⟨e, hb e he, hr, fun y hy => hk y (ht y hy)⟩

omit [Blake3 H] [DecidableEq H] in
theorem byKey_eq_none {t : Tables H P} {key : IdempotencyKey} :
    t.byKey key = none ↔ ∀ y ∈ t.entries, y.entry.idempotencyKey ≠ key := by
  simp [Tables.byKey]

omit [Blake3 H] [DecidableEq H] in
theorem byKey_eq_some {t : Tables H P} {key : IdempotencyKey} {r : EntryRow H P} (h : t.byKey key = some r) :
    r ∈ t.entries ∧ r.entry.idempotencyKey = key := by
  unfold Tables.byKey at h
  exact ⟨List.mem_of_find?_eq_some h, by simpa using List.find?_some h⟩

namespace Tables

variable {B : Backend} {t t' : Tables H P} {tail tail' : Tail H} {log : List (Logged H P)} {xid : Nat}

omit [DecidableEq H] in
theorem logInv_empty (ledger : LedgerId) : (empty ledger : Tables H P).LogInv [] :=
  ⟨⟨.refl _, by simp [empty], by simp [empty]⟩, MerkleAccumulator.covers_new⟩

omit [DecidableEq H] in
/-- Tables with the same rows hold the same log. -/
theorem logInv_of_eq (h : t.LogInv log) (he : t'.entries = t.entries) (hs : t'.subtrees = t.subtrees) :
    t'.LogInv log := ⟨he ▸ h.toRowsOf, hs ▸ h.covers⟩

omit [Blake3 H] [DecidableEq H] in
theorem registerAccount_eq_ok {record : AccountRecord} (h : t.registerAccount B record = .ok t') :
    ∃ accounts, t' = { t with accounts := accounts } := by
  unfold registerAccount at h
  simp only at h
  split at h
  · cases h
  · split at h
    · cases h
    · split at h
      · split at h
        · cases h; exact ⟨_, rfl⟩
        · cases h
      · split at h
        · cases h
        · cases h; exact ⟨_, rfl⟩

omit [Blake3 H] in
theorem insertSeal_eq_some {position : Nat} {x : Seal H} (h : t.insertSeal position x = some t') :
    t' = { t with seals := t.seals ++ [x], periods := t.periods.updateState x.period .sealed } := by
  unfold insertSeal at h
  split at h
  · cases h; rfl
  · cases h

/-- An entry is on file already, or becomes a row at the tail. -/
theorem appendOne_cases {e : Entry H .balanced P} {out : Recorded H}
    (h : t.appendOne B xid tail e = .ok (out, t', tail')) :
    (t' = t ∧ tail' = tail) ∨ ((∀ y ∈ t.entries, y.entry.idempotencyKey ≠ e.idempotencyKey) ∧
      t.insertRow ⟨⟨B.stored e, e.contentHash⟩, some (tail.place e.contentHash), xid⟩ = some t' ∧
      tail' = tail.push e.contentHash) := by
  unfold appendOne at h
  split at h
  · cases h
  · obtain ⟨-, -, h⟩ := bind_eq_ok.1 h
    split at h
    · cases h
    · split at h
      · split at h
        · cases h
        · cases h
          exact .inl ⟨rfl, rfl⟩
      · rename_i hk
        split at h
        · cases h
        · rename_i t₁ hi
          obtain ⟨-, -, h⟩ := bind_eq_ok.1 h
          cases h
          exact .inr ⟨byKey_eq_none.1 hk, hi, rfl⟩

theorem appendEach_spec {batch : List (Entry H .balanced P)} : ∀ {t t' : Tables H P} {tail tail' : Tail H}
    {log : List (Logged H P)} {out : List (Recorded H)}, RowsOf t.entries log → TailOf tail log →
    t.appendEach B xid tail batch = .ok (out, t', tail') →
    ∃ rows, t' = { t with entries := t.entries ++ rows } ∧ RowsOf t'.entries (log ++ rows.map (·.toLogged)) ∧
      TailOf tail' (log ++ rows.map (·.toLogged)) ∧ ∀ r ∈ rows, r.placed.isSome ∧ NewRow B t batch r := by
  induction batch with
  | nil =>
    intro t t' tail tail' log out hr ht h
    cases h
    exact ⟨[], by rw [List.append_nil], by simpa using hr, by simpa using ht, by simp⟩
  | cons e batch ih =>
    intro t t' tail tail' log out hr ht h
    obtain ⟨⟨recorded, t₁, tail₁⟩, h₁, h⟩ := bind_eq_ok.1 h
    obtain ⟨⟨out', t₂, tail₂⟩, h₂, h⟩ := bind_eq_ok.1 h
    cases h
    rcases appendOne_cases h₁ with ⟨rfl, rfl⟩ | ⟨hkey, hi, rfl⟩
    · obtain ⟨rows, he, hrows, htail, hnew⟩ := ih hr ht h₂
      exact ⟨rows, he, hrows, htail, fun r hm => ⟨(hnew r hm).1, (hnew r hm).2.mono (fun _ h => h)
        fun _ => List.mem_cons_of_mem _⟩⟩
    · have hr₁ := hr.insertPlaced (x := ⟨B.stored e, e.contentHash⟩) ht hi
      obtain ⟨rfl, -, -⟩ := insertRow_eq_some hi
      obtain ⟨rows, rfl, hrows, htail, hnew⟩ := ih hr₁ (ht.push (x := ⟨B.stored e, e.contentHash⟩)) h₂
      refine ⟨⟨⟨B.stored e, e.contentHash⟩, some (tail.place e.contentHash), xid⟩ :: rows, by simp, ?_, ?_, ?_⟩
      · simpa using hrows
      · simpa using htail
      · intro r hm
        rcases List.mem_cons.1 hm with rfl | hm
        · exact ⟨rfl, e, List.mem_cons_self, rfl, hkey⟩
        · exact ⟨(hnew r hm).1, (hnew r hm).2.mono (fun _ => List.mem_append_left _) fun _ => List.mem_cons_of_mem _⟩

/-- **An append extends the log** by the entries of the batch that are new, in order. -/
theorem append_spec {batch : List (Entry H .balanced P)} {out : List (Recorded H)} (hl : t.LogInv log)
    (h : t.append B xid batch = .ok (out, t')) :
    ∃ rows subtrees, t' = { t with entries := t.entries ++ rows, subtrees := subtrees } ∧
      t'.LogInv (log ++ rows.map (·.toLogged)) ∧ ∀ r ∈ rows, r.placed.isSome ∧ NewRow B t batch r := by
  obtain ⟨tail, ht, h⟩ := bind_eq_ok.1 h
  obtain ⟨⟨out', t₁, tail₁⟩, h₁, h⟩ := bind_eq_ok.1 h
  cases h
  obtain ⟨rows, rfl, hrows, htail, hnew⟩ := appendEach_spec hl.toRowsOf (tailOf hl ht) h₁
  exact ⟨rows, _, rfl, logInv_store hrows htail, hnew⟩

/-- In a deferred append it is on file already, or becomes a row without a position. -/
theorem commitOne_cases {e : Entry H .balanced P} (h : commitOne B xid t e = some t') :
    t' = t ∨ ((∀ y ∈ t.entries, y.entry.idempotencyKey ≠ e.idempotencyKey) ∧
      t.insertRow ⟨⟨B.stored e, e.contentHash⟩, none, xid⟩ = some t') := by
  unfold commitOne at h
  split at h
  · cases h
  · split at h
    · split at h
      · cases h
        exact .inl rfl
      · cases h
    · rename_i hk
      exact .inr ⟨byKey_eq_none.1 hk, h⟩

theorem commitBatch_rows {batch : List (Entry H .balanced P)} : ∀ {t t' : Tables H P}, RowsOf t.entries log →
    t.commitBatch B xid batch = some t' →
    ∃ rows, t' = { t with entries := t.entries ++ rows } ∧ RowsOf t'.entries log ∧
      ∀ r ∈ rows, r.placed = none ∧ NewRow B t batch r := by
  induction batch with
  | nil =>
    intro t t' hr h
    cases h
    exact ⟨[], by rw [List.append_nil], hr, by simp⟩
  | cons e batch ih =>
    intro t t' hr h
    obtain ⟨t₁, h₁, hrest⟩ := Option.bind_eq_some_iff.1 (show (commitOne B xid t e).bind _ = some t' from h)
    rcases commitOne_cases h₁ with rfl | ⟨hkey, h₁⟩
    · obtain ⟨rows, he, hrows, hnew⟩ := ih hr hrest
      exact ⟨rows, he, hrows, fun r hm => ⟨(hnew r hm).1, (hnew r hm).2.mono (fun _ h => h)
        fun _ => List.mem_cons_of_mem _⟩⟩
    · have hr₁ := hr.insertUnplaced rfl h₁
      obtain ⟨rfl, -, -⟩ := insertRow_eq_some h₁
      obtain ⟨rows, rfl, hrows, hnew⟩ := ih hr₁ hrest
      refine ⟨⟨⟨B.stored e, e.contentHash⟩, none, xid⟩ :: rows, by simp, hrows, fun r hm => ?_⟩
      rcases List.mem_cons.1 hm with rfl | hm
      · exact ⟨rfl, e, List.mem_cons_self, rfl, hkey⟩
      · exact ⟨(hnew r hm).1, (hnew r hm).2.mono (fun _ => List.mem_append_left _) fun _ => List.mem_cons_of_mem _⟩

/-- **A deferred append leaves the log alone**: its rows have no position. -/
theorem commitBatch_spec {batch : List (Entry H .balanced P)} (hl : t.LogInv log)
    (h : t.commitBatch B xid batch = some t') :
    ∃ rows, t' = { t with entries := t.entries ++ rows } ∧ t'.LogInv log ∧
      ∀ r ∈ rows, r.placed = none ∧ NewRow B t batch r := by
  obtain ⟨rows, rfl, hrows, hnew⟩ := commitBatch_rows hl.toRowsOf h
  exact ⟨rows, rfl, ⟨hrows, hl.covers⟩, hnew⟩

omit [Blake3 H] [DecidableEq H] in
theorem mem_sequenceable {xmin : Nat} {r : EntryRow H P} :
    r ∈ t.sequenceable xmin ↔ r ∈ t.entries ∧ r.placed = none ∧ r.insertXid < xmin := by
  simp [sequenceable, List.mem_insertionSort]

omit [Blake3 H] [DecidableEq H] in
theorem unique_sequenceable {xmin : Nat} (hu : (t.entries.map (·.entry.id)).Nodup) :
    ((t.sequenceable xmin).map (·.entry.id)).Nodup := by
  refine ((List.perm_insertionSort _ _).map _).nodup_iff.2 ?_
  exact (List.Sublist.map _ List.filter_sublist).nodup hu

/-- What placing rows keeps. -/
structure Placed (t t' : Tables H P) : Prop where
  frame : t' = { t with entries := t'.entries, subtrees := t'.subtrees }
  leaves : t'.entries.map (·.toLogged) = t.entries.map (·.toLogged)
  unplaced : ∀ r ∈ t'.entries, r.placed = none → r ∈ t.entries

omit [Blake3 H] [DecidableEq H] in
theorem Placed.refl (t : Tables H P) : Placed t t := ⟨rfl, rfl, fun _ h _ => h⟩

omit [Blake3 H] [DecidableEq H] in
theorem Placed.trans {t t' t'' : Tables H P} (h : Placed t t') (h' : Placed t' t'') : Placed t t'' where
  frame := by rw [h'.frame, h.frame]
  leaves := h'.leaves.trans h.leaves
  unplaced r hr hn := h.unplaced r (h'.unplaced r hr hn) hn

omit [Blake3 H] [DecidableEq H] in
theorem placed_updatePlaced (t : Tables H P) (id : EntryId) (p : Nat × H) : Placed t (t.updatePlaced id p) where
  frame := rfl
  leaves := by
    rw [updatePlaced, List.map_map]
    exact List.map_congr_left fun y _ => by simp only [Function.comp]; split <;> rfl
  unplaced r hr hn := by
    obtain ⟨y, hy, rfl⟩ := List.mem_map.1 hr
    split at hn
    · cases hn
    · rename_i hne
      rwa [if_neg hne]

omit [DecidableEq H] in
theorem sequence_loop {rows : List (EntryRow H P)} : ∀ {s : Tables H P × Tail H} {log : List (Logged H P)},
    RowsOf s.1.entries log → TailOf s.2 log → (∀ r ∈ rows, r ∈ s.1.entries ∧ r.placed = none) →
    (rows.map (·.entry.id)).Nodup →
    RowsOf (rows.foldl sequenceOne s).1.entries (log ++ rows.map (·.toLogged)) ∧
      TailOf (rows.foldl sequenceOne s).2 (log ++ rows.map (·.toLogged)) ∧ Placed s.1 (rows.foldl sequenceOne s).1 := by
  induction rows with
  | nil =>
    intro s log hr ht _ _
    simp only [List.map_nil, List.append_nil, List.foldl_nil]
    exact ⟨hr, ht, .refl _⟩
  | cons r rows ih =>
    intro s log hr ht hm hu
    rw [List.map_cons, List.nodup_cons] at hu
    obtain ⟨hmem, hn⟩ := hm r List.mem_cons_self
    have hr₁ := hr.updatePlaced ht hmem hn
    have hm₁ : ∀ x ∈ rows, x ∈ (sequenceOne s r).1.entries ∧ x.placed = none := by
      intro x hx
      obtain ⟨hxm, hxn⟩ := hm x (List.mem_cons_of_mem _ hx)
      refine ⟨List.mem_map.2 ⟨x, hxm, if_neg fun e => hu.1 ?_⟩, hxn⟩
      rw [← e]
      exact List.mem_map_of_mem hx
    obtain ⟨h₁, h₂, h₃⟩ := ih (s := sequenceOne s r) hr₁ (ht.push (x := r.toLogged)) hm₁ hu.2
    rw [List.append_assoc] at h₁ h₂
    exact ⟨h₁, h₂, (placed_updatePlaced _ _ _).trans h₃⟩

omit [DecidableEq H] in
/-- **A sequencing pass extends the log** by the rows it picks up. -/
theorem sequence_spec {xmin n : Nat} (hl : t.LogInv log) (h : t.sequence xmin = .ok (n, t')) :
    t'.LogInv (log ++ (t.sequenceable xmin).map (·.toLogged)) ∧ Placed t t' := by
  unfold sequence at h
  simp only at h
  split at h
  · rename_i hempty
    cases h
    rw [List.isEmpty_iff.1 hempty, List.map_nil, List.append_nil]
    exact ⟨hl, .refl _⟩
  · obtain ⟨tail, ht, h⟩ := bind_eq_ok.1 h
    cases h
    obtain ⟨h₁, h₂, h₃⟩ := sequence_loop (s := (t, tail)) hl.toRowsOf (tailOf hl ht)
      (fun r hr => ⟨(mem_sequenceable.1 hr).1, (mem_sequenceable.1 hr).2.1⟩) (unique_sequenceable hl.unique)
    refine ⟨logInv_store h₁ h₂, ?_⟩
    exact h₃.trans ⟨rfl, rfl, fun _ h _ => h⟩

end Tables

end

end DoubleEntry.L4
