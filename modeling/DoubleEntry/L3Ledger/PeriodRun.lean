import DoubleEntry.Core.LTS
import DoubleEntry.L3Ledger.Period

/-!
# Runs of the calendar

Any sequence of `define`, `ensure` and `transition` calls, succeeding or
failing (`calls`). The watermark never moves back (`after_notBefore`), and a
sealed period stays sealed in every call but one kind: `ensure` stores the
period it is handed, state included, so re-declaring a sealed period in
another state reopens it (`Reopens`, `after_sealedStays_iff`).

**Results.**
* `after_cases`: what one call can do, on any calendar.
* `after_sealedStays_iff`: which calls keep sealed periods sealed.
* `sealed_terminal_of_no_reopening`: runs from any calendar.
* `redeclaration_reopens`: a call that does not.
-/
namespace DoubleEntry.L3.PeriodCalendar

open DoubleEntry.Core DoubleEntry.L1

/-- The mutators of `PeriodCalendar`, with their arguments. -/
inductive Call where
  | define (period : Period)
  | ensure (period : Period)
  | transition (id : PeriodId) (target : PeriodState)

def result (c : PeriodCalendar) : Call → Except PeriodError PeriodCalendar
  | .define p => c.define p
  | .ensure p => c.ensure p
  | .transition id t => c.transition id t

/-- The calendar after a call: a refused one leaves it as it was. -/
def after (c : PeriodCalendar) (k : Call) : PeriodCalendar :=
  match c.result k with
  | .ok c' => c'
  | .error _ => c

def calls : LTS PeriodCalendar Call where
  init c := c = new
  step c k c' := c' = c.after k

/-- The calendar after a list of calls. -/
def afterAll (c : PeriodCalendar) (ks : List Call) : PeriodCalendar := ks.foldl after c

theorem run_afterAll (c : PeriodCalendar) (ks : List Call) : calls.Run c ks (c.afterAll ks) := by
  induction ks generalizing c with
  | nil => exact .nil c
  | cons k ks ih => exact .cons rfl (ih _)

/-- Every sealed period of `c` is a sealed period of `c'`. -/
def SealedStays (c c' : PeriodCalendar) : Prop :=
  ∀ id p, c.get id = some p → p.state = .sealed → ∃ p', c'.get id = some p' ∧ p'.state = .sealed

/-- A re-declaration of a sealed period, same range, in another state. -/
def Reopens (c : PeriodCalendar) : Call → Prop
  | .ensure p => ∃ q, c.get p.id = some q ∧ q.start = p.start ∧ q.end = p.end ∧
      q.state = .sealed ∧ p.state ≠ .sealed
  | _ => False

theorem after_cases (c : PeriodCalendar) (k : Call) :
    c.after k = c ∨
    (∃ p, (k = .define p ∨ k = .ensure p) ∧ c.define p = .ok (c.add p) ∧ c.after k = c.add p) ∨
    (∃ p q, k = .ensure p ∧ c.get p.id = some q ∧ q.start = p.start ∧ q.end = p.end ∧
      c.after k = c.store p.id p) ∨
    (∃ id t q, k = .transition id t ∧ c.get id = some q ∧ permitted q.state t = true ∧
      c.after k = c.store id { q with state := t }) := by
  unfold after
  cases h : c.result k with
  | error e => exact .inl rfl
  | ok c' =>
    right
    cases k with
    | define p =>
      have hd : c.define p = .ok c' := h
      obtain ⟨-, -, rfl⟩ := define_eq_ok.1 hd
      exact .inl ⟨p, .inl rfl, hd, rfl⟩
    | ensure p =>
      rcases ensure_eq_ok.1 (show c.ensure p = .ok c' from h) with hd | ⟨q, hq, hs, he, rfl⟩
      · obtain ⟨-, -, rfl⟩ := define_eq_ok.1 hd
        exact .inl ⟨p, .inr rfl, hd, rfl⟩
      · exact .inr (.inl ⟨p, q, rfl, hq, hs, he, rfl⟩)
    | transition id t =>
      obtain ⟨q, hq, hp, rfl⟩ := transition_eq_ok.1 (show c.transition id t = .ok c' from h)
      exact .inr (.inr ⟨id, t, q, rfl, hq, hp, rfl⟩)

theorem after_notBefore (c : PeriodCalendar) (k : Call) :
    NotBefore c.sealedThrough (c.after k).sealedThrough := by
  rcases c.after_cases k with h | ⟨p, -, -, h⟩ | ⟨p, q, -, -, -, -, h⟩ | ⟨id, t, q, -, -, -, h⟩
  · rw [h]; exact .refl _
  all_goals rw [h]; exact notBefore_markSealedThrough _ _

theorem permitted_not_from_sealed {t : PeriodState} : permitted .sealed t = false := by
  cases t <;> rfl

/-- Overwriting the period under `id` keeps sealed periods sealed when the new
one is sealed or the old one was not. -/
theorem sealedStays_store {c : PeriodCalendar} {id : PeriodId} {p q : Period}
    (hq : c.get id = some q) (h : p.state = .sealed ∨ q.state ≠ .sealed) :
    SealedStays c (c.store id p) := by
  intro id' r hr hs
  rw [get_store]
  split
  · rename_i e
    subst e
    obtain rfl : q = r := by simpa [hq] using hr
    exact ⟨p, rfl, h.resolve_right fun hn => hn hs⟩
  · exact ⟨r, hr, hs⟩

/-- **Terminality of one call.** A call keeps every sealed period sealed exactly
when it does not re-declare one of them in another state. -/
theorem after_sealedStays_iff (c : PeriodCalendar) (k : Call) :
    SealedStays c (c.after k) ↔ ¬ c.Reopens k := by
  constructor
  · intro h hr
    cases k with
    | define p => exact hr
    | transition id t => exact hr
    | ensure p =>
      obtain ⟨q, hq, hs, he, hsealed, hp⟩ := hr
      have ha : c.after (.ensure p) = c.store p.id p := by
        simp only [after, result, ensure_eq_ok.2 (.inr ⟨q, hq, hs, he, rfl⟩)]
      obtain ⟨p', hp', hs'⟩ := h p.id q hq hsealed
      rw [ha, get_store, if_pos rfl] at hp'
      cases hp'
      exact hp hs'
  · intro hr
    rcases c.after_cases k with h | ⟨p, -, hd, h⟩ | ⟨p, q, rfl, hq, hs, he, h⟩ | ⟨id, t, q, rfl, hq, hp, h⟩
    · rw [h]; exact fun _ p hp hs => ⟨p, hp, hs⟩
    · rw [h]
      intro id r hr' hs
      have hne : p.id ≠ id := fun e => by
        have hn := (define_eq_ok.1 hd).1
        rw [e, hr'] at hn
        cases hn
      exact ⟨r, by rw [get_add, if_neg hne, hr'], hs⟩
    · rw [h]
      refine sealedStays_store hq ?_
      by_contra hn
      rw [not_or, not_not] at hn
      exact hr ⟨q, hq, hs, he, hn.2, hn.1⟩
    · rw [h]
      refine sealedStays_store hq (.inr fun e => ?_)
      rw [e, permitted_not_from_sealed] at hp
      cases hp

/-- **Sealed is terminal, the watermark monotone.** Over any run of calls the
watermark never moves back; and over any run in which no call re-declares a
sealed period in another state, a sealed period stays sealed. -/
theorem sealed_terminal_of_no_reopening (c c' : PeriodCalendar) (ks : List Call) :
    (calls.Run c ks c' → NotBefore c.sealedThrough c'.sealedThrough) ∧
    ((calls.restrict fun c k => ¬ c.Reopens k).Run c ks c' → SealedStays c c') := by
  constructor
  · intro r
    exact r.rel (I := fun _ => True) (fun _ _ _ _ _ => trivial)
      (R := fun c c' => NotBefore c.sealedThrough c'.sealedThrough) (fun _ => .refl _)
      (fun _ _ _ => .trans) (fun c k _ _ st => st ▸ c.after_notBefore k) trivial
  · intro r
    refine r.rel (I := fun _ => True) (fun _ _ _ _ _ => trivial) (R := SealedStays)
      (fun _ _ p hp hs => ⟨p, hp, hs⟩) (fun _ _ _ h h' id p hp hs => ?_)
      (fun c k c' _ (st : c' = c.after k ∧ ¬ c.Reopens k) =>
        st.1 ▸ (c.after_sealedStays_iff k).2 st.2) trivial
    obtain ⟨p', hp', hs'⟩ := h id p hp hs
    exact h' id p' hp' hs'

/-- March, closed and sealed. -/
def marchSealed : PeriodCalendar :=
  new.afterAll [.define march, .transition march.id .closing, .transition march.id .sealed]

/-- Not vacuous: `march` sealed, then re-declared as it is stored. -/
theorem march_stays_sealed :
    SealedStays marchSealed (marchSealed.after (.ensure { march with state := .sealed })) := by
  refine (sealed_terminal_of_no_reopening _ _ _).2 (.single ⟨rfl, ?_⟩)
  rintro ⟨q, -, -, -, -, hp⟩
  exact hp rfl

/-- **A start-up re-declaration reopens a sealed period.** `ensure` of the open
definition the configuration holds overwrites the sealed one. -/
theorem redeclaration_reopens :
    calls.Reachable marchSealed ∧ ¬ SealedStays marchSealed (marchSealed.after (.ensure march)) := by
  refine ⟨⟨new, _, rfl, run_afterAll new _⟩, fun h => ?_⟩
  obtain ⟨p, hp, hs⟩ := h march.id { march with state := .sealed } (by decide) rfl
  have hr : (marchSealed.after (.ensure march)).get march.id = some march := by decide
  rw [hr] at hp
  cases hp
  cases hs

end DoubleEntry.L3.PeriodCalendar
