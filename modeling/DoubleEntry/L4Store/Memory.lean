import DoubleEntry.L3Ledger.JournalRun
import DoubleEntry.L3Ledger.PeriodRun

/-!
# The in-memory store

`MemoryStore` wraps a journal in a mutex. Every method holds it for its whole
body, so a call is one step on the journal. Two of them differ from the
journal's own: `define_period` is the calendar's `ensure`, and `append` takes
entries that were validated earlier.

When is a period sealed? Over any run of the journal or of the store that
defines periods open and re-declares no sealed one, exactly when the chain holds
its seal or a bare `transition_period` moved it (`sealed_iff_seal_or_bare_move`).

**Assumptions.** `DefinesOpen` and, for the store, no re-declaration of a sealed period in
another state: a period handed in as sealed is sealed without a seal from the start.

**Results.**
* `journal_sealedIff`, `store_sealedIff`: the invariant of runs.
* `sealed_iff_seal_or_bare_move`: both, over the whole run.
* `sealed_without_seal`: a bare transition.
-/
namespace DoubleEntry.L4

open DoubleEntry.Core DoubleEntry.L1 DoubleEntry.L3

variable {H : Type} [Blake3 H] [DecidableEq H] {P : Scale}

namespace MemoryStore

/-- The mutators of the store, with their arguments. -/
inductive Call (H : Type) (P : Scale)
  | registerAccount (record : AccountRecord)
  | append (batch : List (Entry H .balanced P))
  | definePeriod (period : Period)
  | transitionPeriod (id : PeriodId) (target : PeriodState)
  | sealPeriod (id : PeriodId)
  | clear (clearing : Clearing P)
  | resetClearing (id : ClearingId) (on : Date)

/-- mirrors src/storage.rs:926-936 -/
def registerAccount (j : Journal H P) (record : AccountRecord) : Except AccountError (Journal H P) :=
  (j.accounts.restore record).map fun accounts => { j with accounts := accounts }

/-- mirrors src/storage.rs:1075-1085 -/
def definePeriod (j : Journal H P) (period : Period) : Except PeriodError (Journal H P) :=
  (j.calendar.ensure period).map fun calendar => { j with calendar := calendar }

/-- The journal in the store after a call. mirrors src/storage.rs:922-1152 -/
def after (j : Journal H P) : Call H P → Journal H P
  | .registerAccount record => Journal.keep (registerAccount j record) j
  | .append batch => (j.recordBatch batch).2
  | .definePeriod period => Journal.keep (definePeriod j period) j
  | .transitionPeriod id target => Journal.keep (j.transitionPeriod id target) j
  | .sealPeriod id => (j.sealPeriod id).2
  | .clear clearing => Journal.keep (j.clear clearing) j
  | .resetClearing id on => Journal.keep (j.resetClearing id on) j

/-- The calls on a store for `ledger`, empty or around an empty journal with a policy. -/
def calls (ledger : LedgerId) : LTS (Journal H P) (Call H P) where
  init j := ∃ policy, j = (Journal.new ledger).withPolicy policy
  step j k j' := j' = after j k

/-- A definition of a sealed period again. -/
def Redeclares (j : Journal H P) : Call H P → Prop
  | .definePeriod period => ∃ q, j.calendar.get period.id = some q ∧ q.state = .sealed
  | _ => False

/-- Periods are defined open. -/
def DefinesOpen : Call H P → Prop
  | .definePeriod period => period.state = .open
  | _ => True

end MemoryStore

/-- Periods are defined open. -/
def DefinesOpen : Journal.Call H P → Prop
  | .definePeriod period => period.state = .open
  | _ => True

/-! ## Steps of the calendar and the chain -/

/-- The period a transition moves to sealed, if it succeeds in that. -/
def bareMove (c : PeriodCalendar) (id : PeriodId) (target : PeriodState) : Option PeriodId :=
  if target = .sealed ∧ (c.transition id target).toOption.isSome then some id else none

/-- What one call does to the calendar and the chain, and the period it moves to
sealed by a bare transition. -/
inductive PeriodStep (c : PeriodCalendar) (s : SealChain H) : Option PeriodId → PeriodCalendar → SealChain H → Prop
  | keep : PeriodStep c s none c s
  | define {p : Period} (fresh : c.get p.id = none) (isOpen : p.state = .open) : PeriodStep c s none (c.add p) s
  | redeclare {p q : Period} (hq : c.get p.id = some q) (unsealed : q.state ≠ .sealed) (isOpen : p.state = .open) :
      PeriodStep c s none (c.store p.id p) s
  | move {id : PeriodId} {target : PeriodState} {q : Period} (hq : c.get id = some q)
      (permitted : PeriodCalendar.permitted q.state target = true) :
      PeriodStep c s (if target = .sealed then some id else none) (c.store id { q with state := target }) s
  | sealed {q : Period} {x : Seal H} (hq : c.get x.period = some q) :
      PeriodStep c s none (c.store x.period { q with state := .sealed }) (s.add x)

/-- A period is sealed exactly when the chain holds its seal or it is among `moved`. -/
def SealedIff (c : PeriodCalendar) (s : SealChain H) (moved : List PeriodId) : Prop :=
  ∀ id, (∃ p, c.get id = some p ∧ p.state = .sealed) ↔ (s.get id).isSome ∨ id ∈ moved

omit [Blake3 H] [DecidableEq H] in
/-- Overwriting the period under `id`: what changes is whether `id` is sealed. -/
theorem SealedIff.store {c : PeriodCalendar} {s s' : SealChain H} {moved moved' : List PeriodId} {id : PeriodId}
    {p : Period} (h : SealedIff c s moved)
    (hother : ∀ id', id' ≠ id → ((s'.get id').isSome ∨ id' ∈ moved' ↔ (s.get id').isSome ∨ id' ∈ moved))
    (hid : p.state = .sealed ↔ (s'.get id).isSome ∨ id ∈ moved') : SealedIff (c.store id p) s' moved' := by
  intro id'
  rw [PeriodCalendar.get_store]
  by_cases e : id = id'
  · subst e
    rw [if_pos rfl, ← hid]
    exact ⟨fun ⟨q, hq, hs⟩ => Option.some.inj hq ▸ hs, fun hs => ⟨p, rfl, hs⟩⟩
  · rw [if_neg e, hother id' (Ne.symm e)]
    exact h id'

omit [Blake3 H] [DecidableEq H] in
theorem PeriodStep.sealedIff {c c' : PeriodCalendar} {s s' : SealChain H} {m : Option PeriodId}
    {moved : List PeriodId} (st : PeriodStep c s m c' s') (h : SealedIff c s moved) :
    SealedIff c' s' (moved ++ m.toList) := by
  -- a period that is not sealed has no seal and was not moved
  have hnot : ∀ id : PeriodId, (∀ p, c.get id = some p → p.state ≠ .sealed) → ¬((s.get id).isSome ∨ id ∈ moved) :=
    fun _ hp hn => by
      obtain ⟨p, hp', hs⟩ := (h _).2 hn
      exact hp p hp' hs
  cases st with
  | keep => rwa [Option.toList_none, List.append_nil]
  | @define p fresh isOpen =>
    rw [Option.toList_none, List.append_nil]
    intro id
    rw [PeriodCalendar.get_add]
    by_cases e : p.id = id
    · subst e
      have hn := hnot p.id fun q hq => by rw [fresh] at hq; cases hq
      simp only [if_true, hn, iff_false]
      rintro ⟨q, hq, hs⟩
      cases hq
      rw [isOpen] at hs
      cases hs
    · rw [if_neg e]
      exact h id
  | @redeclare p q hq unsealed isOpen =>
    rw [Option.toList_none, List.append_nil]
    have hn := hnot p.id fun q' hq' => by rw [hq] at hq'; cases hq'; exact unsealed
    refine h.store (fun _ _ => Iff.rfl) ?_
    simp only [hn, isOpen, reduceCtorEq]
  | @move id target q hq permitted =>
    have hq' : q.state ≠ .sealed := fun e => by
      rw [e, PeriodCalendar.permitted_not_from_sealed] at permitted
      cases permitted
    by_cases ht : target = .sealed
    · subst ht
      refine h.store (fun id' hne => ?_) ?_
      · simp [hne]
      · simp
    · rw [if_neg ht, Option.toList_none, List.append_nil]
      have hn := hnot id fun q₁ hq₁ => by rw [hq] at hq₁; cases hq₁; exact hq'
      refine h.store (fun _ _ => Iff.rfl) ?_
      simp only [hn, ht]
  | @sealed q x hq =>
    rw [Option.toList_none, List.append_nil]
    refine h.store (fun id' hne => ?_) ?_
    · rw [SealChain.get_add, if_neg (Ne.symm hne), Option.or_none]
    · rw [SealChain.get_add, if_pos rfl]
      simp

/-! ## Runs -/

omit [DecidableEq H] in
theorem periodStep_transition {j : Journal H P} (id : PeriodId) (target : PeriodState) :
    PeriodStep j.calendar j.seals (bareMove j.calendar id target)
      (Journal.keep (j.transitionPeriod id target) j).calendar
      (Journal.keep (j.transitionPeriod id target) j).seals := by
  unfold bareMove Journal.transitionPeriod
  cases ht : j.calendar.transition id target with
  | error e =>
    rw [if_neg fun h => by cases h.2]
    exact .keep
  | ok c =>
    obtain ⟨q, hq, hp, rfl⟩ := PeriodCalendar.transition_eq_ok.1 ht
    simp only [Except.toOption, Option.isSome_some, and_true]
    exact .move hq hp

theorem periodStep_seal {j : Journal H P} (id : PeriodId) :
    PeriodStep j.calendar j.seals none (j.sealPeriod id).2.calendar (j.sealPeriod id).2.seals := by
  rcases j.sealPeriod_cases id with ⟨e, h⟩ | ⟨q, closing, hs, -, -, h⟩
  · rw [h]
    exact .keep
  · rw [h]
    have hq := (PeriodCalendar.checkSealable_eq_ok.1 hs).1
    exact PeriodStep.sealed (x := j.buildSeal q closing id) hq

/-- The period a call of the journal moves by a bare transition. -/
def callMove (j : Journal H P) : Journal.Call H P → Option PeriodId
  | .transitionPeriod id target => bareMove j.calendar id target
  | _ => none

/-- The periods a run of the journal moves by bare transitions. -/
def bareMoves (j : Journal H P) : List (Journal.Call H P) → List PeriodId
  | [] => []
  | k :: ks => (callMove j k).toList ++ bareMoves (j.after k) ks

theorem periodStep_after {j : Journal H P} {k : Journal.Call H P} (hk : DefinesOpen k) :
    PeriodStep j.calendar j.seals (callMove j k) (j.after k).calendar (j.after k).seals := by
  cases k with
  | transitionPeriod id target => exact periodStep_transition id target
  | sealPeriod id => exact periodStep_seal id
  | definePeriod period =>
    rcases Journal.keep_cases (j.definePeriod period) j with e | e
    · rw [show j.after (.definePeriod period) = j from e]
      exact .keep
    · obtain ⟨c, hd, he⟩ := Journal.definePeriod_eq_ok.1 e
      rw [show j.after (.definePeriod period) = _ from he]
      obtain ⟨hn, -, rfl⟩ := PeriodCalendar.define_eq_ok.1 hd
      exact .define hn hk
  | record draft =>
    have heff := j.after_effect (.record draft)
    generalize j.after (.record draft) = j' at heff ⊢
    cases heff <;> exact .keep
  | clear clearing =>
    have heff := j.after_effect (.clear clearing)
    generalize j.after (.clear clearing) = j' at heff ⊢
    cases heff
    exact .keep
  | resetClearing id on =>
    have heff := j.after_effect (.resetClearing id on)
    generalize j.after (.resetClearing id on) = j' at heff ⊢
    cases heff
    exact .keep
  | register account => exact .keep
  | close id on => exact .keep
  | reopen id => exact .keep
  | setLimit id limit => exact .keep

namespace MemoryStore

/-- The period a call of the store moves by a bare transition. -/
def callMove (j : Journal H P) : Call H P → Option PeriodId
  | .transitionPeriod id target => bareMove j.calendar id target
  | _ => none

/-- The periods a run of the store moves by bare transitions. -/
def bareMoves (j : Journal H P) : List (Call H P) → List PeriodId
  | [] => []
  | k :: ks => (callMove j k).toList ++ bareMoves (after j k) ks

theorem periodStep_after {j : Journal H P} {k : Call H P} (hk : DefinesOpen k) (hr : ¬ Redeclares j k) :
    PeriodStep j.calendar j.seals (callMove j k) (after j k).calendar (after j k).seals := by
  cases k with
  | transitionPeriod id target => exact periodStep_transition id target
  | sealPeriod id => exact periodStep_seal id
  | definePeriod period =>
    rcases Journal.keep_cases (definePeriod j period) j with e | e
    · rw [show after j (.definePeriod period) = j from e]
      exact .keep
    · obtain ⟨c, hc, he⟩ := map_eq_ok.1 e
      rw [show after j (.definePeriod period) = _ from he.symm]
      rcases PeriodCalendar.ensure_eq_ok.1 hc with hd | ⟨q, hq, -, -, rfl⟩
      · obtain ⟨hn, -, rfl⟩ := PeriodCalendar.define_eq_ok.1 hd
        exact .define hn hk
      · exact .redeclare hq (fun hs => hr ⟨q, hq, hs⟩) hk
  | append batch =>
    obtain ⟨hs, -⟩ := j.recordBatch_frame batch
    show PeriodStep j.calendar j.seals none (j.recordBatch batch).2.calendar (j.recordBatch batch).2.seals
    rw [hs.calendar, hs.seals]
    exact .keep
  | registerAccount record =>
    rcases Journal.keep_cases (registerAccount j record) j with e | e
    · rw [show after j (.registerAccount record) = j from e]
      exact .keep
    · obtain ⟨c, -, he⟩ := map_eq_ok.1 e
      rw [show after j (.registerAccount record) = _ from he.symm]
      exact .keep
  | clear clearing =>
    have heff := j.after_effect (.clear clearing)
    show PeriodStep j.calendar j.seals none (j.after (.clear clearing)).calendar (j.after (.clear clearing)).seals
    generalize j.after (.clear clearing) = j' at heff ⊢
    cases heff
    exact .keep
  | resetClearing id on =>
    have heff := j.after_effect (.resetClearing id on)
    show PeriodStep j.calendar j.seals none (j.after (.resetClearing id on)).calendar (j.after (.resetClearing id on)).seals
    generalize j.after (.resetClearing id on) = j' at heff ⊢
    cases heff
    exact .keep

end MemoryStore

omit [Blake3 H] [DecidableEq H] in
theorem sealedIff_new (ledger : LedgerId) : SealedIff .new (.new ledger : SealChain H) [] := fun id => by
  simp [SealChain.get, SealChain.new]

theorem journal_sealedIff {ledger : LedgerId} {j j' : Journal H P} {ks : List (Journal.Call H P)}
    (r : ((Journal.calls ledger).restrict fun _ k => DefinesOpen k).Run j ks j') :
    ∀ {moved : List PeriodId}, SealedIff j.calendar j.seals moved →
      SealedIff j'.calendar j'.seals (moved ++ bareMoves j ks) := by
  induction r with
  | nil j => intro moved h; rwa [bareMoves, List.append_nil]
  | cons st _ ih =>
    intro moved h
    obtain ⟨rfl, hk⟩ := LTS.restrict_step.1 st
    rw [bareMoves, ← List.append_assoc]
    exact ih ((periodStep_after hk).sealedIff h)

/-- The store's runs keep it when they re-declare no sealed period. -/
theorem store_sealedIff {ledger : LedgerId} {j j' : Journal H P} {ks : List (MemoryStore.Call H P)}
    (r : ((MemoryStore.calls ledger).restrict fun j k =>
      MemoryStore.DefinesOpen k ∧ ¬ MemoryStore.Redeclares j k).Run j ks j') :
    ∀ {moved : List PeriodId}, SealedIff j.calendar j.seals moved →
      SealedIff j'.calendar j'.seals (moved ++ MemoryStore.bareMoves j ks) := by
  induction r with
  | nil j => intro moved h; rwa [MemoryStore.bareMoves, List.append_nil]
  | cons st _ ih =>
    intro moved h
    obtain ⟨rfl, hk⟩ := LTS.restrict_step.1 st
    rw [MemoryStore.bareMoves, ← List.append_assoc]
    exact ih ((MemoryStore.periodStep_after hk.1 hk.2).sealedIff h)

/-- **Two ways to be sealed.** In every state of the journal, and of the store
when no sealed period is re-declared, a period is sealed exactly when the chain
holds its seal or a bare transition moved it there. -/
theorem sealed_iff_seal_or_bare_move (ledger : LedgerId) (policy : LedgerPolicy) (j : Journal H P) :
    (∀ ks, ((Journal.calls ledger).restrict fun _ k => DefinesOpen k).Run ((Journal.new ledger).withPolicy policy) ks j →
      SealedIff j.calendar j.seals (bareMoves ((Journal.new ledger).withPolicy policy) ks)) ∧
    (∀ ks, ((MemoryStore.calls ledger).restrict fun j k =>
        MemoryStore.DefinesOpen k ∧ ¬ MemoryStore.Redeclares j k).Run ((Journal.new ledger).withPolicy policy) ks j →
      SealedIff j.calendar j.seals (MemoryStore.bareMoves ((Journal.new ledger).withPolicy policy) ks)) :=
  ⟨fun _ r => journal_sealedIff r (sealedIff_new ledger), fun _ r => store_sealedIff r (sealedIff_new ledger)⟩

/-- March defined, closed and moved to sealed. -/
def moveMarch : List (Journal.Call Preimage cents) :=
  [.definePeriod march, .transitionPeriod march.id .closing, .transitionPeriod march.id .sealed]

def storeMoveMarch : List (MemoryStore.Call Preimage cents) :=
  [.definePeriod march, .transitionPeriod march.id .closing, .transitionPeriod march.id .sealed]

/-- Not vacuous: March was moved, so it is sealed without a seal. -/
theorem moved_march_sealed : SealedIff
    (((Journal.new books).withPolicy .permissive : Journal Preimage cents).afterAll moveMarch).calendar
    (((Journal.new books).withPolicy .permissive : Journal Preimage cents).afterAll moveMarch).seals [march.id] :=
  (sealed_iff_seal_or_bare_move books .permissive _).1 moveMarch
    (.cons ⟨rfl, rfl⟩ (.cons ⟨rfl, trivial⟩ (.cons ⟨rfl, trivial⟩ (.nil _))))

/-- **A bare transition seals without a seal.** -/
theorem sealed_without_seal :
    (∃ j : Journal Preimage cents, (Journal.calls books).Reachable j ∧
      (∃ p, j.calendar.get march.id = some p ∧ p.state = .sealed) ∧ (j.seals.get march.id).isSome = false) ∧
    (∃ j : Journal Preimage cents, (MemoryStore.calls books).Reachable j ∧
      (∃ p, j.calendar.get march.id = some p ∧ p.state = .sealed) ∧ (j.seals.get march.id).isSome = false) := by
  have hget : ((((Journal.new books).withPolicy .permissive : Journal Preimage cents).afterAll moveMarch).calendar.get
      march.id) = some { march with state := .sealed } := by decide
  have hget' : ((storeMoveMarch.foldl MemoryStore.after ((Journal.new books).withPolicy .permissive)).calendar.get
      march.id) = some { march with state := .sealed } := by decide
  refine ⟨⟨_, Journal.reachable_afterAll books .permissive moveMarch, ⟨_, hget, rfl⟩, by decide⟩, ?_⟩
  refine ⟨_, ⟨_, storeMoveMarch, ⟨.permissive, rfl⟩, ?_⟩, ⟨_, hget', rfl⟩, by decide⟩
  exact .cons rfl (.cons rfl (.cons rfl (.nil _)))

end DoubleEntry.L4
