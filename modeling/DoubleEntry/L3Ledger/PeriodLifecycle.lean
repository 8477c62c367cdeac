import DoubleEntry.Core.Except
import DoubleEntry.L3Ledger.PeriodIndex

/-!
# Sealing in date order

Calendars that grow by definitions of open periods, the moves between open and
closing, and seals that `check_sealable` admits (`lifecycle`).

`check_sealable` asks two things of the calendar around a period: every period
the index puts before it is sealed, and it ends after the watermark. Neither can
be undone by a move, so a period can be sealed by some sequence of moves exactly
when the unsealed periods before it can be sealed one after the other first
(`Unblocked`, `canSeal_iff`). In a well-formed calendar that is: none of them
ends at or before the watermark (`WellFormed.unblocked_iff`).

**Assumptions.** The calendar is reached by definitions of open periods and moves; their ranges
may be inverted. The last step asks for ordered ranges (`Ordered`).

**Results.**
* `move_cases`: what a move can do.
* `Unblocked.of_move`: no move but a seal of the period itself clears an obstacle.
* `canSeal_iff`: when a period can be sealed by any sequence of moves.
* `february_blocks_april`: a period behind the watermark blocks every later one.
-/
namespace DoubleEntry.L3.PeriodCalendar

open DoubleEntry.Core DoubleEntry.L1

variable {c : PeriodCalendar} {id : PeriodId} {p q : Period}

/-! ## Moves and seals -/

/-- `check_sealable`, then the transition to sealed. mirrors src/journal.rs:1151-1173 -/
def sealPeriod (c : PeriodCalendar) (id : PeriodId) : Except PeriodError PeriodCalendar :=
  c.checkSealable id >>= fun _ => c.transition id .sealed

/-- Open to closing, closing to open, and an admitted seal. -/
inductive Move where
  | toClosing (id : PeriodId)
  | toOpen (id : PeriodId)
  | sealPeriod (id : PeriodId)

def move (c : PeriodCalendar) : Move → Except PeriodError PeriodCalendar
  | .toClosing id => c.transition id .closing
  | .toOpen id => c.transition id .open
  | .sealPeriod id => c.sealPeriod id

def moves : LTS PeriodCalendar Move where
  init _ := True
  step c m c' := c.move m = .ok c'

inductive Growth where
  | define (period : Period)
  | move (m : Move)

def grow (c : PeriodCalendar) : Growth → Option PeriodCalendar
  | .define p => if p.state = .open then (c.define p).toOption else none
  | .move m => (c.move m).toOption

/-- Definitions of open periods, and moves. -/
def lifecycle : LTS PeriodCalendar Growth := .ofFn (· = new) grow

theorem grow_cases {c c' : PeriodCalendar} {l : Growth} (h : c.grow l = some c') :
    (∃ p, c.define p = .ok c') ∨ ∃ m, c.move m = .ok c' := by
  cases l with
  | define p =>
    simp only [grow] at h
    split at h
    · exact .inl ⟨p, toOption_eq_some.1 h⟩
    · cases h
  | move m => exact .inr ⟨m, toOption_eq_some.1 h⟩

/-- What a move does: it rewrites the state of one unsealed period, and to sealed
only when everything the index puts before it is sealed and it ends after the
watermark. -/
theorem move_cases {c c' : PeriodCalendar} {m : Move} (h : c.move m = .ok c') :
    ∃ id q s, c.get id = some q ∧ q.state ≠ .sealed ∧ c' = c.store id { q with state := s } ∧
      (s = .sealed → (∀ x ∈ c.before q.start, x.state = .sealed) ∧
        c.sealedThrough.all (· < q.end) = true) := by
  have unsealed : ∀ {q : Period} {t}, permitted q.state t = true → q.state ≠ .sealed := by
    intro q t hp e
    rw [e] at hp
    cases t <;> cases hp
  cases m with
  | toClosing id =>
    obtain ⟨q, hq, hp, rfl⟩ := transition_eq_ok.1 (show c.transition id .closing = .ok c' from h)
    exact ⟨id, q, .closing, hq, unsealed hp, rfl, nofun⟩
  | toOpen id =>
    obtain ⟨q, hq, hp, rfl⟩ := transition_eq_ok.1 (show c.transition id .open = .ok c' from h)
    exact ⟨id, q, .open, hq, unsealed hp, rfl, nofun⟩
  | sealPeriod id =>
    obtain ⟨r, hs, ht'⟩ := bind_eq_ok.1 (show c.checkSealable id >>= _ = .ok c' from h)
    obtain ⟨hr, -, hb, ht⟩ := checkSealable_eq_ok.1 hs
    obtain ⟨q, hq, hp, rfl⟩ := transition_eq_ok.1 ht'
    obtain rfl : r = q := by simpa [hr] using hq
    exact ⟨id, r, .sealed, hq, unsealed hp, rfl, fun _ => ⟨hb, ht⟩⟩

theorem indexed_move {c c' : PeriodCalendar} {m : Move} (hi : Indexed c) (h : c.move m = .ok c') :
    Indexed c' := by
  obtain ⟨id, q, s, hq, -, rfl, -⟩ := move_cases h
  exact hi.store hq rfl rfl

theorem indexed_of_reachable {c : PeriodCalendar} (h : lifecycle.Reachable c) : Indexed c := by
  refine LTS.Inductive.reachable (I := Indexed) ⟨fun c (h : c = new) => h ▸ indexed_new, ?_⟩ h
  intro c l c' hi st
  rcases grow_cases st with ⟨p, hd⟩ | ⟨m, hm⟩
  · obtain ⟨hn, -, rfl⟩ := define_eq_ok.1 hd
    exact hi.add hn
  · exact indexed_move hi hm

/-- Every range is one `Period.new` accepts. -/
def Ordered (c : PeriodCalendar) : Prop := ∀ id p, c.get id = some p → p.start ≤ p.end

theorem wellFormed_of_reachable {c : PeriodCalendar} (h : lifecycle.Reachable c) (ho : Ordered c) :
    WellFormed c := by
  -- ranges are never removed, so an ordered calendar only ever held ordered ranges
  refine LTS.Inductive.reachable (I := fun c => Ordered c → WellFormed c)
    ⟨fun c (h : c = new) _ => h ▸ wellFormed_new, ?_⟩ h ho
  intro c l c' ih st ho'
  rcases grow_cases st with ⟨p, hd⟩ | ⟨m, hm⟩
  · obtain ⟨hn, -, rfl⟩ := define_eq_ok.1 hd
    refine (ih fun id q hq => ?_).add (ho' p.id p (by rw [get_add, if_pos rfl])) hd
    have hne : p.id ≠ id := fun e => by rw [e, hq] at hn; cases hn
    exact ho' id q (by rw [get_add, if_neg hne, hq])
  · obtain ⟨id, q, s, hq, -, rfl, -⟩ := move_cases hm
    refine (ih fun id' r hr => ?_).store hq rfl rfl rfl
    by_cases e : id = id'
    · subst e
      obtain rfl : q = r := by simpa [hq] using hr
      exact ho' id { q with state := s } (by rw [get_store, if_pos rfl])
    · exact ho' id' r (by rw [get_store, if_neg e, hr])

/-! ## What stands in the way of a seal -/

/-- The unsealed periods the index puts before `start`. -/
def unsealedBefore (c : PeriodCalendar) (start : Date) : List Period :=
  (c.before start).filter (·.state ≠ .sealed)

/-- The unsealed periods before a range can be sealed in start-date order, and
the range after them: their ends lie after the watermark and increase. -/
structure Unblocked (c : PeriodCalendar) (start stop : Date) : Prop where
  after : ∀ q ∈ c.unsealedBefore start, c.sealedThrough.all (· < q.end) = true
  below : ∀ q ∈ c.unsealedBefore start, q.end < stop
  increasing : ∀ q ∈ c.unsealedBefore start, ∀ r ∈ c.unsealedBefore start,
    q.start < r.start → q.end < r.end
  self : c.sealedThrough.all (· < stop) = true

theorem Indexed.mem_unsealedBefore (h : Indexed c) {start : Date} : q ∈ c.unsealedBefore start ↔
    c.byStart.get? q.start = some q.id ∧ q.start < start ∧ c.get q.id = some q ∧ q.state ≠ .sealed := by
  simp only [unsealedBefore, List.mem_filter, mem_before, ne_eq, decide_not, Bool.not_eq_true',
    decide_eq_false_iff_not]
  constructor
  · rintro ⟨⟨d, id, hd, hlt, hg⟩, hs⟩
    obtain ⟨r, hr, rfl⟩ := h.start_eq _ _ hd
    obtain rfl : r = q := by simpa [hg] using hr.symm
    rw [h.id_eq _ _ hg]
    exact ⟨hd, hlt, hg, hs⟩
  · rintro ⟨hd, hlt, hg, hs⟩
    exact ⟨⟨_, _, hd, hlt, hg⟩, hs⟩

/-- Rewriting the state of the period under `id` keeps the other unsealed ones. -/
theorem Indexed.mem_unsealedBefore_store (h : Indexed c) (hq : c.get id = some q) {s : PeriodState}
    {start : Date} {x : Period} :
    x ∈ (c.store id { q with state := s }).unsealedBefore start ↔
      (x.id ≠ id ∧ x ∈ c.unsealedBefore start) ∨
      (x = { q with state := s } ∧ s ≠ .sealed ∧ c.byStart.get? q.start = some id ∧ q.start < start) := by
  have hid := h.id_eq _ _ hq
  rw [(h.store (p := { q with state := s }) hq rfl rfl).mem_unsealedBefore, h.mem_unsealedBefore,
    byStart_store, get_store]
  by_cases e : id = x.id
  · rw [if_pos e]
    constructor
    · rintro ⟨hd, hlt, hx, hs⟩
      simp only [Option.some.injEq] at hx
      subst hx
      exact .inr ⟨rfl, hs, hid ▸ hd, hlt⟩
    · rintro (⟨hne, -⟩ | ⟨rfl, hs, hd, hlt⟩)
      · exact absurd e.symm hne
      · exact ⟨hid ▸ hd, hlt, rfl, hs⟩
  · rw [if_neg e]
    constructor
    · exact fun hx => .inl ⟨fun e' => e e'.symm, hx⟩
    · rintro (⟨-, hx⟩ | ⟨rfl, -⟩)
      · exact hx
      · exact absurd hid.symm e

theorem all_lt_trans {t : Option Date} {a b : Date} (h : t.all (· < a) = true) (hab : a < b) :
    t.all (· < b) = true := by
  cases t with
  | none => rfl
  | some d => simpa using lt_trans (by simpa using h) hab

/-- Every unsealed period before the range is one before it in `c'`, with the
same range: then what `c'` allows `c` allows. -/
theorem Unblocked.of_ranges {c' : PeriodCalendar} {start stop : Date} (h : Unblocked c' start stop)
    (ht : c'.sealedThrough = c.sealedThrough)
    (hr : ∀ q ∈ c.unsealedBefore start, ∃ q' ∈ c'.unsealedBefore start,
      q'.start = q.start ∧ q'.end = q.end) : Unblocked c start stop := by
  refine ⟨fun q hq => ?_, fun q hq => ?_, fun q hq r hr' hlt => ?_, ht ▸ h.self⟩
  · obtain ⟨q', hq', -, e⟩ := hr q hq
    exact ht ▸ e ▸ h.after q' hq'
  · obtain ⟨q', hq', -, e⟩ := hr q hq
    exact e ▸ h.below q' hq'
  · obtain ⟨q', hq', es, ee⟩ := hr q hq
    obtain ⟨r', hr'', fs, fe⟩ := hr r hr'
    have := h.increasing q' hq' r' hr'' (by rw [es, fs]; exact hlt)
    rwa [ee, fe] at this

/-- A move other than the seal of the range itself clears no obstacle. -/
theorem Unblocked.of_move {c' : PeriodCalendar} {m : Move} {start stop : Date} (hi : Indexed c)
    (hm : c.move m = .ok c') (h : Unblocked c' start stop) : Unblocked c start stop := by
  obtain ⟨id, q, s, hq, hqs, rfl, hseal⟩ := move_cases hm
  have mem : ∀ {x}, x ∈ (c.store id { q with state := s }).unsealedBefore start ↔ _ :=
    hi.mem_unsealedBefore_store hq
  have same : ∀ x ∈ c.unsealedBefore start, x.id = id → x = q := fun x hx e => by
    have := (hi.mem_unsealedBefore.1 hx).2.2.1
    rw [e, hq] at this
    exact (Option.some.inj this).symm
  by_cases hs : s = .sealed
  · obtain ⟨hb, ht⟩ := hseal hs
    have hthrough : (c.store id { q with state := s }).sealedThrough = some q.end :=
      markSealedThrough_of_after hs ht
    -- what is left after the seal ends after the period just sealed
    have other : ∀ x ∈ c.unsealedBefore start, x ≠ q →
        x ∈ (c.store id { q with state := s }).unsealedBefore start ∧ q.end < x.end := by
      intro x hx hne
      have hx' := mem.2 (.inl ⟨fun e => hne (same x hx e), hx⟩)
      exact ⟨hx', by simpa [hthrough] using h.after x hx'⟩
    have hself : q.end < stop := by simpa [hthrough] using h.self
    refine ⟨fun x hx => ?_, fun x hx => ?_, fun x hx y hy hlt => ?_, all_lt_trans ht hself⟩
    · by_cases e : x = q
      · exact e ▸ ht
      · exact all_lt_trans ht (other x hx e).2
    · by_cases e : x = q
      · exact e ▸ hself
      · exact h.below x (other x hx e).1
    · by_cases e : x = q <;> by_cases f : y = q
      · rw [e, f] at hlt
        exact absurd hlt (lt_irrefl _)
      · exact e ▸ (other y hy f).2
      · -- everything before the sealed period was sealed already
        obtain ⟨hd, -, hx', hxs⟩ := hi.mem_unsealedBefore.1 hx
        exact absurd (hb x (mem_before.2 ⟨_, _, hd, f ▸ hlt, hx'⟩)) hxs
      · exact h.increasing x (other x hx e).1 y (other y hy f).1 hlt
  · refine h.of_ranges (markSealedThrough_of_not_sealed hs) fun x hx => ?_
    by_cases e : x.id = id
    · obtain rfl := same x hx e
      obtain ⟨hd, hlt, -, -⟩ := hi.mem_unsealedBefore.1 hx
      exact ⟨_, mem.2 (.inr ⟨rfl, hs, e ▸ hd, hlt⟩), rfl, rfl⟩
    · exact ⟨x, mem.2 (.inl ⟨e, hx⟩), rfl, rfl⟩

def SealedIn (c : PeriodCalendar) (id : PeriodId) : Prop := ∃ p, c.get id = some p ∧ p.state = .sealed

/-- `id` can be sealed by some sequence of moves. -/
def CanSeal (c : PeriodCalendar) (id : PeriodId) : Prop := ∃ ms c', moves.Run c ms c' ∧ SealedIn c' id

theorem unblocked_of_run {c' : PeriodCalendar} {ms : List Move} (r : moves.Run c ms c') :
    ∀ {p : Period}, Indexed c → c.get id = some p → p.state ≠ .sealed → SealedIn c' id →
      Unblocked c p.start p.end := by
  induction r with
  | nil c =>
    rintro p - hp hs ⟨p', hp', hs'⟩
    rw [hp] at hp'
    cases hp'
    exact absurd hs' hs
  | @cons c c₁ c' m ms st _ ih =>
    intro p hi hp hs hsealed
    have hi₁ := indexed_move hi st
    obtain ⟨i, q, s, hq, -, he, hseal⟩ := move_cases st
    by_cases e : i = id
    · subst e
      obtain rfl : q = p := by simpa [hp] using hq.symm
      by_cases hss : s = .sealed
      · obtain ⟨hb, ht⟩ := hseal hss
        have hnone : ∀ x, x ∉ c.unsealedBefore q.start := fun x hx => by
          obtain ⟨hx, hxs⟩ := List.mem_filter.1 hx
          exact absurd (hb x hx) (by simpa using hxs)
        exact ⟨fun x hx => absurd hx (hnone x), fun x hx => absurd hx (hnone x),
          fun x hx => absurd hx (hnone x), ht⟩
      · have hp₁ : c₁.get i = some { q with state := s } := by rw [he, get_store, if_pos rfl]
        exact (ih (p := { q with state := s }) hi₁ hp₁ hss hsealed).of_move hi st
    · have hp₁ : c₁.get id = some p := by rw [he, get_store, if_neg e, hp]
      exact (ih hi₁ hp₁ hs hsealed).of_move hi st

/-- A period with nothing unsealed before it that ends after the watermark is
sealed in at most two moves, and nothing else changes. -/
theorem seal_run (hi : Indexed c) (hp : c.get id = some p) (hs : p.state ≠ .sealed)
    (hb : ∀ x ∈ c.before p.start, x.state = .sealed) (ht : c.sealedThrough.all (· < p.end) = true) :
    ∃ ms c', moves.Run c ms c' ∧ Indexed c' ∧ c'.byStart = c.byStart ∧
      c'.sealedThrough = some p.end ∧
      ∀ id', c'.get id' = if id = id' then some { p with state := .sealed } else c.get id' := by
  -- from closing it is one move
  have one : ∀ {c₁ : PeriodCalendar} {q : Period}, Indexed c₁ → c₁.get id = some q →
      q.state = .closing → (∀ x ∈ c₁.before q.start, x.state = .sealed) →
      c₁.sealedThrough.all (· < q.end) = true →
      c₁.move (.sealPeriod id) = .ok (c₁.store id { q with state := .sealed }) := by
    intro c₁ q _ hq hqs hqb hqt
    exact bind_eq_ok.2 ⟨q, checkSealable_eq_ok.2 ⟨hq, hqs, hqb, hqt⟩,
      transition_eq_ok.2 ⟨q, hq, by rw [hqs]; rfl, rfl⟩⟩
  cases hst : p.state with
  | sealed => exact absurd hst hs
  | closing =>
    refine ⟨[.sealPeriod id], _, .single (one hi hp hst hb ht), hi.store hp rfl rfl, rfl, ?_, ?_⟩
    · exact markSealedThrough_of_after rfl ht
    · exact fun _ => get_store
  | «open» =>
    have m₁ : c.move (.toClosing id) = .ok (c.store id { p with state := .closing }) :=
      transition_eq_ok.2 ⟨p, hp, by rw [hst]; rfl, rfl⟩
    have hi₁ := indexed_move hi m₁
    have hp₁ : (c.store id { p with state := .closing }).get id = some { p with state := .closing } := by
      rw [get_store, if_pos rfl]
    have hthrough : (c.store id { p with state := .closing }).sealedThrough = c.sealedThrough :=
      markSealedThrough_of_not_sealed (p := { p with state := .closing }) nofun
    have hb₁ : ∀ x ∈ (c.store id { p with state := .closing }).before p.start, x.state = .sealed := by
      intro x hx
      obtain ⟨d, i, hd, hlt, hg⟩ := mem_before.1 hx
      rcases get_store_cases hg with ⟨rfl, -⟩ | ⟨-, hg⟩
      · -- the period itself is not before its own start
        obtain ⟨r, hr, hrs⟩ := hi.start_eq _ _ hd
        rw [hp] at hr
        cases hr
        exact absurd hlt (by rw [hrs]; exact lt_irrefl _)
      · exact hb x (mem_before.2 ⟨d, i, hd, hlt, hg⟩)
    refine ⟨[.toClosing id, .sealPeriod id], _,
      .cons m₁ (.single (one hi₁ hp₁ rfl hb₁ (hthrough ▸ ht))), hi₁.store hp₁ rfl rfl, rfl, ?_, ?_⟩
    · exact markSealedThrough_of_after rfl (hthrough ▸ ht)
    · intro id'
      rw [get_store, get_store]
      split <;> rfl

/-- The first unsealed period before `start`: everything before it is sealed. -/
theorem Indexed.first_unsealed (hi : Indexed c) {start : Date} (hq : q ∈ c.unsealedBefore start) :
    ∃ b ∈ c.unsealedBefore start, ∀ x ∈ c.before b.start, x.state = .sealed := by
  cases hb : (c.unsealedBefore start).argmin Period.start with
  | none => rw [List.argmin_eq_none.1 hb] at hq; cases hq
  | some b =>
    have hbm := List.argmin_mem hb
    refine ⟨b, hbm, fun x hx => by_contra fun hs => ?_⟩
    obtain ⟨d, i, hd, hlt, hg⟩ := mem_before.1 hx
    obtain ⟨r, hr, rfl⟩ := hi.start_eq _ _ hd
    obtain rfl : r = x := by simpa [hg] using hr.symm
    have hid := hi.id_eq _ _ hg
    have hxm : r ∈ c.unsealedBefore start :=
      hi.mem_unsealedBefore.2 ⟨hid ▸ hd, hlt.trans (hi.mem_unsealedBefore.1 hbm).2.1, hid ▸ hg, hs⟩
    exact absurd (List.le_of_mem_argmin hxm hb) (not_le.2 hlt)

theorem canSeal_of_none (hi : Indexed c) (hp : c.get id = some p) (hs : p.state ≠ .sealed)
    (hn : ∀ x, x ∉ c.unsealedBefore p.start) (ht : c.sealedThrough.all (· < p.end) = true) :
    CanSeal c id := by
  have hb : ∀ x ∈ c.before p.start, x.state = .sealed := fun x hx => by_contra fun hxs =>
    hn x (List.mem_filter.2 ⟨hx, by simpa using hxs⟩)
  obtain ⟨ms, c', r, -, -, -, hget⟩ := seal_run hi hp hs hb ht
  exact ⟨ms, c', r, _, by rw [hget, if_pos rfl], rfl⟩

/-- Induction on a list of identifiers that covers the unsealed periods before
the range: the first of them is sealed and leaves the list. -/
theorem canSeal_of_unblocked : ∀ (n : Nat) (l : List PeriodId) {c : PeriodCalendar}, l.length = n →
    Indexed c → c.get id = some p → p.state ≠ .sealed → Unblocked c p.start p.end →
    (∀ x ∈ c.unsealedBefore p.start, x.id ∈ l) → CanSeal c id := by
  intro n
  induction n with
  | zero =>
    intro l c hl hi hp hs hu hcov
    refine canSeal_of_none hi hp hs (fun x hx => ?_) hu.self
    have := hcov x hx
    rw [List.length_eq_zero_iff.1 hl] at this
    cases this
  | succ n ih =>
    intro l c hl hi hp hs hu hcov
    by_cases hne : ∃ q, q ∈ c.unsealedBefore p.start
    swap
    · exact canSeal_of_none hi hp hs (not_exists.1 hne) hu.self
    obtain ⟨q, hq⟩ := hne
    obtain ⟨b, hbm, hbefore⟩ := hi.first_unsealed hq
    obtain ⟨hbd, hblt, hbg, hbs⟩ := hi.mem_unsealedBefore.1 hbm
    obtain ⟨ms, c₁, r, hi₁, hstart, hthrough, hget⟩ := seal_run hi hbg hbs hbefore (hu.after b hbm)
    have hne : b.id ≠ id := fun e => by
      rw [e, hp] at hbg
      cases hbg
      exact lt_irrefl _ hblt
    have hp₁ : c₁.get id = some p := by rw [hget, if_neg hne, hp]
    -- what is still unsealed before the range was so already, and starts after `b`
    have left : ∀ x ∈ c₁.unsealedBefore p.start, x ∈ c.unsealedBefore p.start ∧ x.id ≠ b.id ∧
        b.start < x.start := by
      intro x hx
      obtain ⟨hd, hlt, hg, hxs⟩ := hi₁.mem_unsealedBefore.1 hx
      rw [hstart] at hd
      rw [hget] at hg
      split at hg
      · cases hg
        exact absurd rfl hxs
      · rename_i hxb
        refine ⟨hi.mem_unsealedBefore.2 ⟨hd, hlt, hg, hxs⟩, Ne.symm hxb, ?_⟩
        rcases lt_trichotomy x.start b.start with h | h | h
        · exact absurd (hbefore x (mem_before.2 ⟨_, _, hd, h, hg⟩)) hxs
        · rw [h, hbd] at hd
          exact absurd (Option.some.inj hd) hxb
        · exact h
    have hu₁ : Unblocked c₁ p.start p.end := by
      refine ⟨fun x hx => ?_, fun x hx => hu.below x (left x hx).1, fun x hx y hy =>
        hu.increasing x (left x hx).1 y (left y hy).1, ?_⟩
      · simpa [hthrough] using hu.increasing b hbm x (left x hx).1 (left x hx).2.2
      · simpa [hthrough] using hu.below b hbm
    have hl₁ : (l.erase b.id).length = n := by
      rw [List.length_erase_of_mem (hcov b hbm), hl, Nat.add_sub_cancel]
    obtain ⟨ms', c', r', hsealed⟩ := ih (l.erase b.id) hl₁ hi₁ hp₁ hs hu₁ fun x hx =>
      (List.mem_erase_of_ne (left x hx).2.1).2 (hcov x (left x hx).1)
    exact ⟨ms ++ ms', c', r.append r', hsealed⟩

/-- In a well-formed calendar ends increase with starts, so only the watermark
can block. -/
theorem WellFormed.unblocked_iff (h : WellFormed c) (hp : c.get id = some p)
    (ht : c.sealedThrough.all (· < p.start) = true) : Unblocked c p.start p.end ↔
      ∀ id' q, c.get id' = some q → q.state ≠ .sealed → q.start < p.start →
        c.sealedThrough.all (· < q.end) = true := by
  have hpo := h.ordered _ _ hp
  have apart : ∀ {i j q r}, c.get i = some q → c.get j = some r → q.start < r.start → q.end < r.start := by
    intro i j q r hq hr hlt
    have hne : i ≠ j := fun e => by
      rw [e, hr] at hq
      cases hq
      exact lt_irrefl _ hlt
    rcases overlaps_eq_false.1 (h.disjoint _ _ _ _ hq hr hne) with hd | hd
    · exact absurd ((h.ordered _ _ hr).trans_lt (hd.trans hlt)) (lt_irrefl _)
    · exact hd
  constructor
  · intro hu id' q hq hs hlt
    have hid := h.id_eq _ _ hq
    exact hu.after q (h.mem_unsealedBefore.2 ⟨hid ▸ h.indexed _ _ hq, hlt, hid ▸ hq, hs⟩)
  · intro ha
    refine ⟨fun q hq => ?_, fun q hq => ?_, fun q hq r hr hlt => ?_, ?_⟩
    · obtain ⟨-, hlt, hg, hs⟩ := h.mem_unsealedBefore.1 hq
      exact ha _ q hg hs hlt
    · obtain ⟨-, hlt, hg, -⟩ := h.mem_unsealedBefore.1 hq
      exact (apart hg hp hlt).trans_le hpo
    · obtain ⟨-, -, hqg, -⟩ := h.mem_unsealedBefore.1 hq
      obtain ⟨-, -, hrg, -⟩ := h.mem_unsealedBefore.1 hr
      exact (apart hqg hrg hlt).trans_le (h.ordered _ _ hrg)
    · cases hth : c.sealedThrough with
      | none => rfl
      | some t =>
        rw [hth] at ht
        simpa using lt_of_lt_of_le (by simpa using ht) hpo

/-- **When a period can still be sealed.** In every reachable calendar a defined
unsealed period can be sealed by some sequence of moves exactly when the
unsealed periods before it, in start-date order, and then the period itself have
increasing ends after the watermark. With ranges that `Period.new` accepts, and
a period that starts after the watermark: exactly when no unsealed period that
starts earlier ends at or before the watermark. -/
theorem canSeal_iff {c : PeriodCalendar} (hc : lifecycle.Reachable c) {id : PeriodId} {p : Period}
    (hp : c.get id = some p) (hs : p.state ≠ .sealed) :
    (CanSeal c id ↔ Unblocked c p.start p.end) ∧
    (Ordered c → c.sealedThrough.all (· < p.start) = true →
      (CanSeal c id ↔ ∀ id' q, c.get id' = some q → q.state ≠ .sealed → q.start < p.start →
        c.sealedThrough.all (· < q.end) = true)) := by
  have hi := indexed_of_reachable hc
  have main : CanSeal c id ↔ Unblocked c p.start p.end := by
    constructor
    · rintro ⟨ms, c', r, hsealed⟩
      exact unblocked_of_run r hi hp hs hsealed
    · intro hu
      exact canSeal_of_unblocked _ ((c.unsealedBefore p.start).map (·.id)) rfl hi hp hs hu
        fun x hx => List.mem_map_of_mem hx
  refine ⟨main, fun ho ht => main.trans ?_⟩
  exact (wellFormed_of_reachable hc ho).unblocked_iff hp ht

/-- March sealed, then `april` defined. -/
def aprilAfterMarch : PeriodCalendar :=
  ((LTS.exec grow new [.define march, .move (.toClosing march.id), .move (.sealPeriod march.id),
    .define april]).getD new)

/-- As `aprilAfterMarch`, with `february` defined behind the watermark. -/
def februaryBehind : PeriodCalendar := (aprilAfterMarch.grow (.define february)).getD new

theorem aprilAfterMarch_reachable : lifecycle.Reachable aprilAfterMarch :=
  LTS.reachable_of_exec [.define march, .move (.toClosing march.id), .move (.sealPeriod march.id),
    .define april] rfl (by decide)

/-- Not vacuous: with March sealed, April can be sealed. -/
theorem april_canSeal : CanSeal aprilAfterMarch april.id :=
  (canSeal_iff aprilAfterMarch_reachable (p := april) (by decide) (by decide)).1.2
    ⟨by decide, by decide, by decide, by decide⟩

/-- **A period defined behind the watermark blocks every later one.** March is
sealed, then February defined: April starts after the watermark, and no sequence
of moves seals it. -/
theorem february_blocks_april : lifecycle.Reachable februaryBehind ∧
    februaryBehind.get april.id = some april ∧ april.state ≠ .sealed ∧
    februaryBehind.sealedThrough.all (· < april.start) = true ∧ ¬ CanSeal februaryBehind april.id := by
  have hr : lifecycle.Reachable februaryBehind :=
    aprilAfterMarch_reachable.step (l := .define february)
      (show aprilAfterMarch.grow (.define february) = some februaryBehind by decide)
  refine ⟨hr, by decide, by decide, by decide, ?_⟩
  rintro ⟨ms, c', r, hsealed⟩
  have hu := unblocked_of_run (p := april) r (indexed_of_reachable hr) (by decide) (by decide) hsealed
  exact absurd (hu.after february (by decide)) (by decide)

end DoubleEntry.L3.PeriodCalendar
