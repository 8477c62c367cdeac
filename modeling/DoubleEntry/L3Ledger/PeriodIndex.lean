import DoubleEntry.Core.LTS
import DoubleEntry.L3Ledger.Period

/-!
# The calendar's index and watermark

The calendar is two maps and a date that have to agree. `Indexed` is what every
calendar keeps, whatever ranges it is handed: identifiers are keys and the index
points to periods at their start. `WellFormed` is what it keeps when every range
is ordered, as `Period.new` builds them: all periods are indexed and no two
overlap, and `define` can trust the two neighbours by start date
(`WellFormed.overlaps_none`). `Watermark` says the watermark is the greatest end
of the sealed periods.

A calendar replayed from a list holds exactly the list (`foldlM_define`), and
the replay succeeds on distinct identifiers and disjoint ranges
(`foldlM_define_ok`).

**Results.**
* `WellFormed.overlaps_none`, `WellFormed.define_ok`: the check against neighbours is the check
  against all periods.
* `foldlM_define_ok`, `fromPeriods_ok`: disjoint ordered ranges can be replayed, in any order.
* `WellFormed.fromPeriods_get`: and give back the periods and the watermark.
-/
namespace DoubleEntry.L3.PeriodCalendar

open DoubleEntry.Core DoubleEntry.L1

/-! ## The index -/

/-- Identifiers are keys, and the index points to periods at their start. -/
structure Indexed (c : PeriodCalendar) : Prop where
  id_eq : ∀ id p, c.get id = some p → p.id = id
  start_eq : ∀ d id, c.byStart.get? d = some id → ∃ p, c.get id = some p ∧ p.start = d

/-- Every range is ordered, indexed and disjoint from the others. -/
structure WellFormed (c : PeriodCalendar) : Prop extends Indexed c where
  ordered : ∀ id p, c.get id = some p → p.start ≤ p.end
  indexed : ∀ id p, c.get id = some p → c.byStart.get? p.start = some id
  disjoint : ∀ id p id' p', c.get id = some p → c.get id' = some p' → id ≠ id' → p.overlaps p' = false

theorem indexed_new : Indexed new := ⟨fun _ _ h => by simp at h, fun _ _ h => by simp [new] at h⟩

theorem wellFormed_new : WellFormed new where
  toIndexed := indexed_new
  ordered _ _ h := by simp at h
  indexed _ _ h := by simp at h
  disjoint _ _ _ _ h := by simp at h

variable {c : PeriodCalendar} {id : PeriodId} {p q : Period}

theorem get_add_cases {id' : PeriodId} {r : Period} (h : (c.add p).get id' = some r) :
    (id' = p.id ∧ r = p) ∨ (p.id ≠ id' ∧ c.get id' = some r) := by
  rw [get_add] at h
  split at h
  · rename_i e; cases h; exact .inl ⟨e.symm, rfl⟩
  · rename_i e; exact .inr ⟨e, h⟩

theorem get_store_cases {id' : PeriodId} {r : Period} (h : (c.store id p).get id' = some r) :
    (id' = id ∧ r = p) ∨ (id ≠ id' ∧ c.get id' = some r) := by
  rw [get_store] at h
  split at h
  · rename_i e; cases h; exact .inl ⟨e.symm, rfl⟩
  · rename_i e; exact .inr ⟨e, h⟩

theorem Indexed.add (h : Indexed c) (hn : c.get p.id = none) : Indexed (c.add p) where
  id_eq id' r hr := by
    rcases get_add_cases hr with ⟨rfl, rfl⟩ | ⟨-, hr⟩
    · rfl
    · exact h.id_eq _ _ hr
  start_eq d id' hd := by
    have hd : (c.byStart.insert p.start p.id).get? d = some id' := hd
    rw [OrdMap.get?_insert] at hd
    split at hd
    · rename_i e
      cases hd
      exact ⟨p, by rw [get_add, if_pos rfl], e⟩
    · obtain ⟨r, hr, hs⟩ := h.start_eq d id' hd
      have hne : p.id ≠ id' := fun e => by rw [e, hr] at hn; cases hn
      exact ⟨r, by rw [get_add, if_neg hne, hr], hs⟩

/-- Overwriting a period by one of the same identifier and start. -/
theorem Indexed.store (h : Indexed c) (hq : c.get id = some q) (hid : p.id = q.id)
    (hs : p.start = q.start) : Indexed (c.store id p) where
  id_eq id' r hr := by
    rcases get_store_cases hr with ⟨rfl, rfl⟩ | ⟨-, hr⟩
    · rw [hid, h.id_eq _ _ hq]
    · exact h.id_eq _ _ hr
  start_eq d id' hd := by
    obtain ⟨r, hr, hrs⟩ := h.start_eq d id' hd
    by_cases e : id = id'
    · subst e
      obtain rfl : q = r := by simpa [hq] using hr
      exact ⟨p, by rw [get_store, if_pos rfl], hs.trans hrs⟩
    · exact ⟨r, by rw [get_store, if_neg e, hr], hrs⟩

theorem overlaps_comm (p q : Period) : p.overlaps q = q.overlaps p := by
  simp only [Period.overlaps, and_comm]

theorem overlaps_eq_false : p.overlaps q = false ↔ q.end < p.start ∨ p.end < q.start := by
  simp only [Period.overlaps, decide_eq_false_iff_not, not_and_or, not_le]

theorem mem_neighbours {r : Period} (h : c.byStart.lastLE p.start = some (r.start, r.id) ∨
    c.byStart.firstGE p.start = some (r.start, r.id)) (hr : c.get r.id = some r) :
    r ∈ c.neighbours p := by
  unfold neighbours
  refine List.mem_filterMap.2 ⟨(r.start, r.id), ?_, hr⟩
  rcases h with h | h <;> simp [h]

/-- The two neighbours by start date are enough: a range that meets neither of
them meets no period of a well-formed calendar. -/
theorem WellFormed.overlaps_none (h : WellFormed c)
    (hn : ∀ q ∈ c.neighbours p, q.overlaps p = false) {r : Period} (hr : c.get id = some r) :
    r.overlaps p = false := by
  have hri := h.indexed _ _ hr
  have hrid := h.id_eq _ _ hr
  subst hrid
  have hro := h.ordered _ _ hr
  rcases le_total r.start p.start with hle | hle
  · -- the last period starting at or before `p` lies between `r` and `p`
    cases hl : c.byStart.lastLE p.start with
    | none =>
      have := OrdMap.lastLE_none hl _ (OrdMap.mem_entries.2 hri)
      exact absurd hle (not_le.2 this)
    | some e =>
      obtain ⟨he, hep, hmax⟩ := OrdMap.lastLE_some hl
      have hrb := hmax _ (OrdMap.mem_entries.2 hri) hle
      obtain ⟨b, hb, hbs⟩ := h.start_eq _ _ he
      have hbid := h.id_eq _ _ hb
      have hbo := hn b (mem_neighbours (.inl (by rw [hl, hbs, hbid])) (hbid ▸ hb))
      by_cases hrb' : r.id = e.2
      · rw [hrb', hb] at hr
        cases hr
        exact hbo
      · have hd := h.disjoint _ _ _ _ hr hb hrb'
        have hbe := h.ordered _ _ hb
        rw [overlaps_eq_false] at hd ⊢
        rcases hd with hd | hd
        · exact absurd (hbe.trans_lt hd) (not_lt.2 (hbs ▸ hrb))
        · exact .inr (hd.trans_le (hbs ▸ hep))
  · -- the first period starting at or after `p` lies between `p` and `r`
    cases hf : c.byStart.firstGE p.start with
    | none =>
      have := OrdMap.firstGE_none hf _ (OrdMap.mem_entries.2 hri)
      exact absurd hle (not_le.2 this)
    | some e =>
      obtain ⟨he, hep, hmin⟩ := OrdMap.firstGE_some hf
      have har := hmin _ (OrdMap.mem_entries.2 hri) hle
      obtain ⟨a, ha, has⟩ := h.start_eq _ _ he
      have haid := h.id_eq _ _ ha
      have hao := hn a (mem_neighbours (.inr (by rw [hf, has, haid])) (haid ▸ ha))
      by_cases hra' : r.id = e.2
      · rw [hra', ha] at hr
        cases hr
        exact hao
      · have hd := h.disjoint _ _ _ _ hr ha hra'
        rw [overlaps_eq_false] at hao hd ⊢
        have hae := h.ordered _ _ ha
        rcases hao with hao | hao
        · exact .inl (hao.trans_le (has.trans_le har))
        · exact absurd (hae.trans_lt hao) (not_lt.2 (has ▸ hep))

theorem WellFormed.add (h : WellFormed c) (hp : p.start ≤ p.end) (hd : c.define p = .ok (c.add p)) :
    WellFormed (c.add p) := by
  obtain ⟨hn, hno, -⟩ := define_eq_ok.1 hd
  have hfree : ∀ {id' r}, c.get id' = some r → r.overlaps p = false := h.overlaps_none hno
  refine { toIndexed := h.toIndexed.add hn, ordered := ?_, indexed := ?_, disjoint := ?_ }
  · intro id' r hr
    rcases get_add_cases hr with ⟨-, rfl⟩ | ⟨-, hr⟩
    · exact hp
    · exact h.ordered _ _ hr
  · intro id' r hr
    show (c.byStart.insert p.start p.id).get? r.start = some id'
    rcases get_add_cases hr with ⟨rfl, rfl⟩ | ⟨-, hr⟩
    · exact OrdMap.get?_insert_self
    · have hne : p.start ≠ r.start := fun e => by
        have := overlaps_eq_false.1 (hfree hr)
        have hro := h.ordered _ _ hr
        rw [e] at this hp
        rcases this with h1 | h1
        · exact absurd h1 (not_lt.2 hp)
        · exact absurd h1 (not_lt.2 hro)
      rw [OrdMap.get?_insert_ne hne, h.indexed _ _ hr]
  · intro id₁ r₁ id₂ r₂ h₁ h₂ hne
    rcases get_add_cases h₁ with ⟨e₁, rfl⟩ | ⟨-, g₁⟩ <;> rcases get_add_cases h₂ with ⟨e₂, rfl⟩ | ⟨-, g₂⟩
    · exact absurd (e₁.trans e₂.symm) hne
    · rw [overlaps_comm]; exact hfree g₂
    · exact hfree g₁
    · exact h.disjoint _ _ _ _ g₁ g₂ hne

theorem WellFormed.store (h : WellFormed c) (hq : c.get id = some q) (hid : p.id = q.id)
    (hs : p.start = q.start) (he : p.end = q.end) : WellFormed (c.store id p) := by
  have back : ∀ {id' r}, (c.store id p).get id' = some r →
      ∃ r', c.get id' = some r' ∧ r.start = r'.start ∧ r.end = r'.end := by
    intro id' r hr
    rcases get_store_cases hr with ⟨rfl, rfl⟩ | ⟨-, hr⟩
    · exact ⟨q, hq, hs, he⟩
    · exact ⟨r, hr, rfl, rfl⟩
  refine { toIndexed := h.toIndexed.store hq hid hs, ordered := ?_, indexed := ?_, disjoint := ?_ }
  · intro id' r hr
    obtain ⟨r', hr', e1, e2⟩ := back hr
    rw [e1, e2]
    exact h.ordered _ _ hr'
  · intro id' r hr
    obtain ⟨r', hr', e1, -⟩ := back hr
    rw [byStart_store, e1]
    exact h.indexed _ _ hr'
  · intro id₁ r₁ id₂ r₂ h₁ h₂ hne
    obtain ⟨r₁', h₁', e1, e2⟩ := back h₁
    obtain ⟨r₂', h₂', e3, e4⟩ := back h₂
    have := h.disjoint _ _ _ _ h₁' h₂' hne
    rwa [overlaps_eq_false, ← e1, ← e2, ← e3, ← e4, ← overlaps_eq_false] at this

/-- The watermark is the greatest end of the sealed periods. -/
structure Watermark (c : PeriodCalendar) : Prop where
  covers : ∀ id p, c.get id = some p → p.state = .sealed → ∃ d ∈ c.sealedThrough, p.end ≤ d
  attained : ∀ d ∈ c.sealedThrough, ∃ id p, c.get id = some p ∧ p.state = .sealed ∧ p.end = d

theorem watermark_new : Watermark new := ⟨fun _ _ h => by simp at h, fun _ h => by cases h⟩

/-- A period is written under an identifier that no sealed period has. -/
theorem Watermark.put (h : Watermark c) {id : PeriodId} {c' : PeriodCalendar}
    (hget : ∀ id', c'.get id' = if id = id' then some p else c.get id')
    (hmark : c'.sealedThrough = markSealedThrough c.sealedThrough p)
    (hold : ∀ q, c.get id = some q → q.state ≠ .sealed) : Watermark c' := by
  refine ⟨fun id' r hr hs => ?_, fun d hd => ?_⟩
  · rw [hmark]
    rw [hget] at hr
    split at hr
    · cases hr
      exact markSealedThrough_covers hs
    · obtain ⟨d, hd, hle⟩ := h.covers id' r hr hs
      obtain ⟨d', hd', hle'⟩ := notBefore_markSealedThrough c.sealedThrough p d hd
      exact ⟨d', hd', hle.trans hle'⟩
  · rw [hmark] at hd
    unfold markSealedThrough at hd
    split at hd
    · rename_i hm
      cases hd
      exact ⟨id, p, by rw [hget, if_pos rfl], hm.1, rfl⟩
    · obtain ⟨id', r, hr, hs, he⟩ := h.attained d hd
      have hne : id ≠ id' := fun e => hold r (by rw [e, hr]) hs
      exact ⟨id', r, by rw [hget, if_neg hne, hr], hs, he⟩

theorem Watermark.add (h : Watermark c) (hn : c.get p.id = none) : Watermark (c.add p) :=
  h.put (fun _ => get_add) rfl fun q hq => by
    rw [hn] at hq
    cases hq

/-! ## Rebuilding a calendar -/

/-- A range that meets no period is defined. -/
theorem WellFormed.define_ok (hn : c.get p.id = none)
    (hno : ∀ id q, c.get id = some q → q.overlaps p = false) : c.define p = .ok (c.add p) := by
  refine define_eq_ok.2 ⟨hn, fun q hq => ?_, rfl⟩
  obtain ⟨e, -, he⟩ := List.mem_filterMap.1 hq
  exact hno _ _ he

/-- Replaying a list of ordered ranges: what the calendar it gives holds. -/
theorem foldlM_define {l : List Period} : ∀ {c c' : PeriodCalendar}, WellFormed c → Watermark c →
    (∀ p ∈ l, p.start ≤ p.end) → l.foldlM define c = .ok c' →
    WellFormed c' ∧ Watermark c' ∧ (∀ id q, c'.get id = some q ↔ c.get id = some q ∨ q ∈ l ∧ q.id = id) := by
  induction l with
  | nil =>
    intro c c' hw hm _ h
    cases h
    exact ⟨hw, hm, fun id q => by simp⟩
  | cons p l ih =>
    intro c c' hw hm ho h
    cases hd : c.define p with
    | error e => simp [List.foldlM, hd, bind, Except.bind] at h
    | ok c₁ =>
      obtain ⟨hn, -, rfl⟩ := define_eq_ok.1 hd
      have hp := ho p List.mem_cons_self
      obtain ⟨h1, h2, h3⟩ := ih (hw.add hp hd) (hm.add hn) (fun q hq => ho q (List.mem_cons_of_mem _ hq))
        (by simpa [List.foldlM, hd, bind, Except.bind] using h)
      refine ⟨h1, h2, fun id q => ?_⟩
      rw [h3, List.mem_cons]
      constructor
      · rintro (hg | ⟨hq, e⟩)
        · rcases get_add_cases hg with ⟨rfl, rfl⟩ | ⟨-, hg⟩
          · exact .inr ⟨.inl rfl, rfl⟩
          · exact .inl hg
        · exact .inr ⟨.inr hq, e⟩
      · rintro (hg | ⟨rfl | hq, e⟩)
        · have hne : p.id ≠ id := fun e => by rw [e, hg] at hn; cases hn
          exact .inl (by rw [get_add, if_neg hne, hg])
        · exact .inl (by rw [get_add, if_pos e])
        · exact .inr ⟨hq, e⟩

/-- Distinct identifiers and disjoint ordered ranges are replayed without an error. -/
theorem foldlM_define_ok {l : List Period} : ∀ {c : PeriodCalendar},
    l.Pairwise (fun p q => p.id ≠ q.id ∧ p.overlaps q = false) →
    (∀ p ∈ l, c.get p.id = none ∧ ∀ id q, c.get id = some q → q.overlaps p = false) →
    ∃ c', l.foldlM define c = .ok c' := by
  induction l with
  | nil => exact fun {c} _ _ => ⟨c, rfl⟩
  | cons p l ih =>
    intro c hpw hc
    obtain ⟨hp, hl⟩ := List.pairwise_cons.1 hpw
    obtain ⟨hn, hno⟩ := hc p List.mem_cons_self
    have hd := WellFormed.define_ok hn hno
    obtain ⟨c', h'⟩ := ih (c := c.add p) hl fun q hq => by
      obtain ⟨hqn, hqo⟩ := hc q (List.mem_cons_of_mem _ hq)
      refine ⟨by rw [get_add, if_neg (hp q hq).1, hqn], fun id r hr => ?_⟩
      rcases get_add_cases hr with ⟨-, rfl⟩ | ⟨-, hr⟩
      · exact (hp q hq).2
      · exact hqo id r hr
    exact ⟨c', by simpa [List.foldlM, hd, bind, Except.bind] using h'⟩

theorem fromPeriods_ok {l l' : List Period} (hl : l.Perm l')
    (hp : l'.Pairwise fun p q => p.id ≠ q.id ∧ p.overlaps q = false) : ∃ c, fromPeriods l = .ok c := by
  have hsymm : ∀ {p q : Period}, p.id ≠ q.id ∧ p.overlaps q = false → q.id ≠ p.id ∧ q.overlaps p = false := fun hpq =>
    ⟨hpq.1.symm, by rw [overlaps_comm, hpq.2]⟩
  exact foldlM_define_ok (hl.symm.pairwise hp hsymm) fun p _ => ⟨rfl, fun _ _ h => by simp at h⟩

theorem WellFormed.mem_iter (h : WellFormed c) : p ∈ c.iter ↔ c.get p.id = some p := by
  unfold iter
  rw [List.mem_filterMap]
  constructor
  · intro hm
    obtain ⟨id, -, hid⟩ := hm
    have hget : c.get id = some p := hid
    rwa [h.id_eq id p hget]
  · intro hget
    exact ⟨p.id, OrdMap.mem_values.2 ⟨p.start, h.indexed p.id p hget⟩, hget⟩

/-- A calendar replayed from the periods of another holds them, and its watermark is theirs. -/
theorem WellFormed.fromPeriods_get {c' : PeriodCalendar} (h : WellFormed c) {l : List Period}
    (hl : ∀ p, p ∈ l ↔ c.get p.id = some p) (hc : fromPeriods l = .ok c') :
    WellFormed c' ∧ Watermark c' ∧ ∀ id, c'.get id = c.get id := by
  have ho : ∀ p ∈ l, p.start ≤ p.end := fun p hp => h.ordered p.id p ((hl p).1 hp)
  obtain ⟨hw, hm, hget⟩ := foldlM_define wellFormed_new watermark_new ho hc
  refine ⟨hw, hm, fun id => Option.ext fun q => ?_⟩
  rw [hget, get_new, hl]
  constructor
  · intro hor
    obtain ⟨hq, rfl⟩ := hor.resolve_left (by simp)
    exact hq
  · intro hq
    have hid := h.id_eq id q hq
    exact .inr ⟨hid ▸ hq, hid⟩

end DoubleEntry.L3.PeriodCalendar
