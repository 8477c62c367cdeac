import DoubleEntry.L3Ledger.PeriodIndex
import DoubleEntry.L3Ledger.PeriodRun

/-!
# The calendar against a scan

`define` compares a range with two neighbours, `period_on` looks at the last period that
starts at or before a date, and the watermark is moved along call by call. On a well-formed
calendar each gives what a scan of all periods would (`Faithful`), and the periods in any
order rebuild it.

* `calendar_faithful`: over any `define` and `transition` calls, refused or not, when no
  range that is handed in ends before it starts.
* `inverted_hides_march`: `define` itself accepts such a range, which then hides a period
  from its neighbours.
* `WellFormed.fromPeriods_perm`: a well-formed calendar is rebuilt from its periods in any
  order, index and watermark included.
-/
namespace DoubleEntry.L3.PeriodCalendar

open DoubleEntry.Core DoubleEntry.L1

variable {c c' : PeriodCalendar} {id : PeriodId} {p q : Period} {date : Date}

/-! ## Scans -/

/-- The first period, by identifier, that has `date` in it. -/
def scan (c : PeriodCalendar) (date : Date) : Option Period := c.periods.values.find? (·.contains date)

/-- The last days of the sealed periods. -/
def sealedEnds (c : PeriodCalendar) : List Date := (c.periods.values.filter (·.state = .sealed)).map (·.end)

theorem mem_sealedEnds {d : Date} : d ∈ c.sealedEnds ↔ ∃ id p, c.get id = some p ∧ p.state = .sealed ∧ p.end = d := by
  simp only [sealedEnds, List.mem_map, List.mem_filter, OrdMap.mem_values, decide_eq_true_iff, get]
  constructor
  · rintro ⟨p, ⟨⟨id, hget⟩, hs⟩, he⟩
    exact ⟨id, p, hget, hs, he⟩
  · rintro ⟨id, p, hget, hs, he⟩
    exact ⟨p, ⟨⟨id, hget⟩, hs⟩, he⟩

theorem contains_iff : p.contains date = true ↔ p.start ≤ date ∧ date ≤ p.end := by simp [Period.contains]

/-- The last period that starts at or before a date is the only one that can have it. -/
theorem WellFormed.periodOn_iff (h : WellFormed c) : c.periodOn date = some p ↔
    (∃ id, c.get id = some p) ∧ p.contains date = true := by
  unfold periodOn
  rw [Option.bind_eq_some_iff]
  constructor
  · rintro ⟨e, -, hfilter⟩
    obtain ⟨hget, hp⟩ := Option.filter_eq_some_iff.1 hfilter
    exact ⟨⟨e.2, hget⟩, hp⟩
  · rintro ⟨⟨id, hget⟩, hp⟩
    obtain ⟨hstart, hend⟩ := contains_iff.1 hp
    have hentry := OrdMap.mem_entries.2 (h.indexed id p hget)
    cases hlast : c.byStart.lastLE date with
    | none => exact absurd hstart (OrdMap.lastLE_none hlast _ hentry).not_ge
    | some e =>
      obtain ⟨he, hle, hmax⟩ := OrdMap.lastLE_some hlast
      obtain ⟨q, hq, hqs⟩ := h.start_eq e.1 e.2 he
      have hlater : p.start ≤ q.start := (hmax _ hentry hstart).trans_eq hqs.symm
      by_cases hid : id = e.2
      · subst hid
        exact ⟨e, rfl, Option.filter_eq_some_iff.2 ⟨hget, hp⟩⟩
      · -- another one between `p` and the date would overlap `p`
        rcases overlaps_eq_false.1 (h.disjoint id p e.2 q hget hq hid) with hbefore | hbefore
        · exact absurd (hbefore.trans_le hlater) (h.ordered e.2 q hq).not_gt
        · rw [hqs] at hbefore
          exact absurd (hend.trans_lt hbefore) hle.not_gt

theorem WellFormed.periodOn_eq_scan (h : WellFormed c) (date : Date) : c.periodOn date = c.scan date := by
  cases hscan : c.scan date with
  | some p =>
    have hcontains := List.find?_some (p := fun p : Period => p.contains date) hscan
    exact h.periodOn_iff.2 ⟨OrdMap.mem_values.1 (List.mem_of_find?_eq_some hscan), hcontains⟩
  | none =>
    rw [Option.eq_none_iff_forall_ne_some]
    intro p hp
    obtain ⟨hget, hcontains⟩ := h.periodOn_iff.1 hp
    exact List.find?_eq_none.1 hscan p (OrdMap.mem_values.2 hget) hcontains

theorem Watermark.eq_max (h : Watermark c) : c.sealedThrough = c.sealedEnds.max? := by
  cases hthrough : c.sealedThrough with
  | none =>
    have hnone : c.sealedEnds = [] := List.eq_nil_iff_forall_not_mem.2 fun d hd => by
      obtain ⟨id, p, hget, hs, -⟩ := mem_sealedEnds.1 hd
      obtain ⟨t, ht, -⟩ := h.covers id p hget hs
      rw [hthrough] at ht
      cases ht
    rw [hnone, List.max?_nil]
  | some d =>
    symm
    refine List.max?_eq_some_iff.2 ⟨mem_sealedEnds.2 (h.attained d hthrough), fun b hb => ?_⟩
    obtain ⟨id, p, hget, hs, rfl⟩ := mem_sealedEnds.1 hb
    obtain ⟨t, ht, hle⟩ := h.covers id p hget hs
    rw [hthrough] at ht
    cases ht
    exact hle

/-- A date is behind the watermark when it is at or before the end of a sealed period. -/
theorem Watermark.behind_iff (h : Watermark c) : c.sealedThrough.any (date ≤ ·) = c.sealedEnds.any (date ≤ ·) := by
  rw [Bool.eq_iff_iff, Option.any_eq_true, List.any_eq_true]
  simp only [decide_eq_true_iff]
  constructor
  · rintro ⟨d, hd, hle⟩
    exact ⟨d, mem_sealedEnds.2 (h.attained d hd), hle⟩
  · rintro ⟨d, hd, hle⟩
    obtain ⟨id, p, hget, hs, rfl⟩ := mem_sealedEnds.1 hd
    obtain ⟨t, ht, hend⟩ := h.covers id p hget hs
    exact ⟨t, ht, hle.trans hend⟩

/-! ## Refusals -/

/-- `define` accepts what is apart from every period. -/
theorem WellFormed.define_ok_iff (h : WellFormed c) : (∃ c', c.define p = .ok c') ↔
    ∀ q ∈ c.periods.values, q.id ≠ p.id ∧ q.overlaps p = false := by
  simp only [OrdMap.mem_values, forall_exists_index]
  constructor
  · rintro ⟨c', hok⟩ q id hget
    obtain ⟨hn, hno, -⟩ := define_eq_ok.1 hok
    refine ⟨fun hid => ?_, h.overlaps_none hno hget⟩
    rw [← hid, h.id_eq id q hget, show c.get id = some q from hget] at hn
    cases hn
  · intro hall
    have hfree : c.get p.id = none := by
      cases hget : c.get p.id with
      | none => rfl
      | some q => exact absurd (h.id_eq _ q hget) (hall q p.id hget).1
    exact ⟨c.add p, WellFormed.define_ok hfree fun id q hget => (hall q id hget).2⟩

/-! ## Rebuilding -/

theorem WellFormed.pairwise_values (h : WellFormed c) :
    c.periods.values.Pairwise fun p q => p.id ≠ q.id ∧ p.overlaps q = false := by
  refine List.pairwise_map.2 (c.periods.increasing.imp_of_mem fun {a b} ha hb hlt => ?_)
  have hga : c.get a.1 = some a.2 := OrdMap.mem_entries.1 ha
  have hgb : c.get b.1 = some b.2 := OrdMap.mem_entries.1 hb
  refine ⟨?_, h.disjoint _ _ _ _ hga hgb hlt.ne⟩
  rw [h.id_eq _ _ hga, h.id_eq _ _ hgb]
  exact hlt.ne

/-- The periods determine the index and the watermark. -/
theorem WellFormed.ext (h : WellFormed c) (hm : Watermark c) (h' : WellFormed c') (hm' : Watermark c')
    (hget : ∀ id, c'.get id = c.get id) : c' = c := by
  have hperiods : c'.periods = c.periods := OrdMap.ext_get? hget
  have hindex : ∀ {c : PeriodCalendar}, WellFormed c → ∀ d id,
      c.byStart.get? d = some id ↔ ∃ p, c.get id = some p ∧ p.start = d := fun h d id => by
    refine ⟨h.start_eq d id, ?_⟩
    rintro ⟨p, hp, rfl⟩
    exact h.indexed id p hp
  have hstart : c'.byStart = c.byStart := OrdMap.ext_get? fun d => Option.ext fun id => by
    rw [hindex h', hindex h]
    simp only [hget]
  have hthrough : c'.sealedThrough = c.sealedThrough := by
    rw [hm'.eq_max, hm.eq_max, sealedEnds, sealedEnds, hperiods]
  cases c
  cases c'
  simp only [mk.injEq]
  exact ⟨hperiods, hstart, hthrough⟩

/-- **The periods in any order rebuild the calendar.** -/
theorem WellFormed.fromPeriods_perm (h : WellFormed c) (hm : Watermark c) {l : List Period} (hl : l.Perm c.periods.values) :
    fromPeriods l = .ok c := by
  have hmem : ∀ p, p ∈ l ↔ c.get p.id = some p := fun p => by
    rw [hl.mem_iff, OrdMap.mem_values]
    refine ⟨fun ⟨id, hget⟩ => ?_, fun hget => ⟨p.id, hget⟩⟩
    rwa [← h.id_eq id p hget] at hget
  obtain ⟨c', hok⟩ := fromPeriods_ok hl h.pairwise_values
  obtain ⟨hw', hm', hsame⟩ := h.fromPeriods_get hmem hok
  rw [hok, h.ext hm hw' hm' hsame]

/-! ## Runs -/

/-- What the operations of a calendar say of its periods. -/
structure Faithful (c : PeriodCalendar) : Prop where
  disjoint : c.periods.values.Pairwise fun p q => p.overlaps q = false
  refuses : ∀ p, (∃ e, c.define p = .error e) ↔ ∃ q ∈ c.periods.values, q.id = p.id ∨ q.overlaps p = true
  periodOn : ∀ date, c.periodOn date = c.scan date
  stateOn : ∀ date, c.stateOn date =
    if c.sealedEnds.any (date ≤ ·) then .sealed else (c.scan date).elim .open (·.state)
  sealedThrough : c.sealedThrough = c.sealedEnds.max?
  rebuilt : ∀ l, l.Perm c.periods.values → fromPeriods l = .ok c

theorem WellFormed.faithful (h : WellFormed c) (hm : Watermark c) : Faithful c where
  disjoint := h.pairwise_values.imp And.right
  refuses p := by
    have hrefused : (∃ e, c.define p = .error e) ↔ ¬ ∃ c', c.define p = .ok c' := by
      cases c.define p <;> simp
    rw [hrefused, h.define_ok_iff]
    push Not
    simp only [ne_eq, Bool.not_eq_false]
    refine exists_congr fun q => and_congr_right fun _ => ?_
    by_cases hid : q.id = p.id <;> simp [hid]
  periodOn := h.periodOn_eq_scan
  stateOn date := by rw [PeriodCalendar.stateOn, hm.behind_iff, h.periodOn_eq_scan]
  sealedThrough := hm.eq_max
  rebuilt _ := h.fromPeriods_perm hm

/-- A `define` or a `transition`. -/
def Call.Edits : Call → Prop
  | .ensure _ => False
  | _ => True

/-- The range does not end before it starts. -/
def Call.InOrder : Call → Prop
  | .define p => p.start ≤ p.end
  | _ => True

/-- The watermark stays the last day of the sealed periods when another one is sealed. -/
theorem Watermark.store (h : Watermark c) (hq : c.get id = some q) (hs : q.state ≠ .sealed) : Watermark (c.store id p) :=
  h.put (fun _ => get_store) rfl fun r hr => by
    rw [hq] at hr
    cases hr
    exact hs

theorem wellFormed_after {k : Call} (h : WellFormed c) (hm : Watermark c) (hedits : k.Edits) (horder : k.InOrder) :
    WellFormed (c.after k) ∧ Watermark (c.after k) := by
  rcases c.after_cases k with hk | ⟨p, hk, hd, ha⟩ | ⟨p, q, rfl, -, -, -, -⟩ | ⟨id, t, q, rfl, hq, hp, ha⟩
  · rw [hk]
    exact ⟨h, hm⟩
  · rw [ha]
    have hp : p.start ≤ p.end := by
      rcases hk with rfl | rfl
      · exact horder
      · exact hedits.elim
    exact ⟨h.add hp hd, hm.add (define_eq_ok.1 hd).1⟩
  · exact hedits.elim
  · rw [ha]
    refine ⟨h.store hq rfl rfl rfl, hm.store hq fun hs => ?_⟩
    rw [hs, permitted_not_from_sealed] at hp
    cases hp

/-- **The calendar says what a scan of its periods does**, after any `define` and
`transition` calls whose ranges are in order. -/
theorem calendar_faithful {ks : List Call} (h : (calls.restrict fun _ k => k.Edits ∧ k.InOrder).Run new ks c) : c.Faithful := by
  have hstable : (calls.restrict fun _ k => k.Edits ∧ k.InOrder).Stable fun c => WellFormed c ∧ Watermark c := by
    intro c k c' hc st
    obtain ⟨rfl, hedits, horder⟩ := st
    exact wellFormed_after hc.1 hc.2 hedits horder
  obtain ⟨hw, hm⟩ := hstable.run h ⟨wellFormed_new, watermark_new⟩
  exact hw.faithful hm

theorem run_restrict {ok : Call → Prop} {ks : List Call} (hks : ∀ k ∈ ks, ok k) (c : PeriodCalendar) :
    (calls.restrict fun _ k => ok k).Run c ks (c.afterAll ks) := by
  induction ks generalizing c with
  | nil => exact .nil c
  | cons k ks ih =>
    obtain ⟨hk, hks⟩ := List.forall_mem_cons.1 hks
    exact .cons ⟨rfl, hk⟩ (ih hks (c.after k))

/-- March is sealed; a second definition of April is refused. -/
def marchThenApril : List Call :=
  [.define april, .define march, .transition march.id .closing, .define april, .transition march.id .sealed]

/-- Not vacuous: March is sealed, so a day of February is. -/
theorem marchThenApril_faithful : (new.afterAll marchThenApril).stateOn february.start = .sealed ∧
    (new.afterAll marchThenApril).Faithful := by
  have happril : april.start ≤ april.end := by decide
  have hmarch : march.start ≤ march.end := by decide
  exact ⟨by decide, calendar_faithful (run_restrict (by simp [marchThenApril, Call.Edits, Call.InOrder, happril, hmarch]) new)⟩

/-- A range that ends before it starts, inside March. -/
def inverted : Period := ⟨april.id, ⟨2026, 3, 10, by decide⟩, february.start, .open⟩

/-- A week of March. -/
def marchWeek : Period := ⟨february.id, ⟨2026, 3, 16, by decide⟩, ⟨2026, 3, 22, by decide⟩, .open⟩

/-- The week is accepted, since its neighbour is the range that hides March. -/
theorem inverted_hides_march :
    march ∈ (new.afterAll [.define march, .define inverted, .define marchWeek]).periods.values ∧
    marchWeek ∈ (new.afterAll [.define march, .define inverted, .define marchWeek]).periods.values ∧
    march.overlaps marchWeek = true ∧
    ¬ ∀ ks c, (calls.restrict fun _ k => k.Edits).Run new ks c → c.Faithful := by
  refine ⟨by decide, by decide, by decide, fun h => ?_⟩
  have hrun : (calls.restrict fun _ k => k.Edits).Run new [.define march, .define inverted, .define marchWeek] _ :=
    run_restrict (by simp [Call.Edits]) new
  exact absurd (h _ _ hrun).disjoint (by decide)

end DoubleEntry.L3.PeriodCalendar
