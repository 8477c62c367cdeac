import DoubleEntry.L3Ledger.BalanceReads
import DoubleEntry.L3Ledger.PeriodRun
import DoubleEntry.L3Ledger.Registry
import DoubleEntry.L3Ledger.SealChain

/-!
# Sealing refuses only what the calendar refuses

`seal_period` has three steps that can fail behind `check_sealable`: the fold of the
closing balance, the link of the built seal, and the move of the period. In a journal
of sealed entries none of them does. The fold is one of fewer magnitudes than the
balances on file hold. The link holds because the chain was made by pushes of this
ledger, its last seal committed to no more entries and accounts than there are now,
and a period that was sealed before ends by the watermark (`Chained`).

**Assumptions.** The journal is reached by operations on sealed entries and by calls of the
registry and the calendar that it lends (`bookkeeping`): what is lent cannot be exchanged
for another one.

**Results.**
* `Chained.push_ok`: the built seal links.
* `sealPeriod_of_sealable`: no step fails behind `check_sealable`.
* `seal_iff_sealable`: when a period is sealed, and all that a call leaves behind.
-/
namespace DoubleEntry.L3.Journal

open DoubleEntry.Core DoubleEntry.L1 DoubleEntry.L2

variable {H : Type} [Blake3 H] [DecidableEq H] {P : Scale}

/-- A write through `accounts_mut` or `calendar_mut` is calls of the registry or the
calendar that is borrowed. -/
def Borrows (j : Journal H P) : Operation H P → Prop
  | .accountsMut accounts => ∃ ks, accounts = j.accounts.afterAll ks
  | .calendarMut calendar => ∃ ks, calendar = j.calendar.afterAll ks
  | _ => True

/-- Operations on sealed entries, and calls on what the journal lends. -/
def bookkeeping (ledger : LedgerId) : LTS (Journal H P) (Operation H P) :=
  (sealedOperations ledger).restrict Borrows

/-! ## What the next link needs -/

/-- The chain was made here, and the books have not shrunk since its last seal. -/
structure Chained (j : Journal H P) : Prop where
  pushed : (SealChain.pushes j.ledger).Reachable j.seals
  passed : ∀ id, j.seals.periods.contains id = true →
    ∃ p, j.calendar.get id = some p ∧ ∃ d ∈ j.calendar.sealedThrough, p.end ≤ d
  entries : ∀ s ∈ j.seals.seals.getLast?, s.treeHead.size ≤ j.entries.length
  accounts : ∀ s ∈ j.seals.seals.getLast?, s.accounts.size ≤ j.accounts.len

theorem chained_new (ledger : LedgerId) : (new ledger : Journal H P).Chained where
  pushed := LTS.Reachable.of_init (T := SealChain.pushes ledger) rfl
  passed id h := by cases h
  entries s h := by cases h
  accounts s h := by cases h

omit [DecidableEq H] in
theorem size_buildSeal {j : Journal H P} (hlog : j.Logged) (q : Period) (closing : TrialBalance P) (id : PeriodId) :
    (j.buildSeal q closing id).treeHead.size = j.entries.length ∧
      (j.buildSeal q closing id).accounts.size = j.accounts.len := by
  constructor
  · rw [show (j.buildSeal q closing id).treeHead = j.log.head from rfl, MerkleLog.head_eq, hlog, List.length_map]
  · exact congrArg TreeHead.size (AccountRegistry.commitment_eq j.accounts)

/-- The chain is kept, and nothing else went backwards. -/
structure Grown (j j' : Journal H P) : Prop where
  ledger : j'.ledger = j.ledger
  seals : j'.seals = j.seals
  entries : j.entries.length ≤ j'.entries.length
  accounts : j.accounts.Grows j'.accounts
  watermark : PeriodCalendar.NotBefore j.calendar.sealedThrough j'.calendar.sealedThrough
  ranges : ∀ id p, j.calendar.get id = some p → ∃ p', j'.calendar.get id = some p' ∧ p'.end = p.end

theorem Chained.grown {j j' : Journal H P} (h : j.Chained) (g : Grown j j') : j'.Chained where
  pushed := by rw [g.ledger, g.seals]; exact h.pushed
  passed id hid := by
    rw [g.seals] at hid
    obtain ⟨p, hp, d, hd, hle⟩ := h.passed id hid
    obtain ⟨p', hp', he⟩ := g.ranges id p hp
    obtain ⟨d', hd', hle'⟩ := g.watermark d hd
    exact ⟨p', hp', d', hd', he ▸ hle.trans hle'⟩
  entries s hs := by
    rw [g.seals] at hs
    exact (h.entries s hs).trans g.entries
  accounts s hs := by
    rw [g.seals] at hs
    exact (h.accounts s hs).trans g.accounts.len_le

omit [DecidableEq H] in
theorem Grown.ofExtends {j j' : Journal H P} (h : Extends j j') (hledger : j'.ledger = j.ledger)
    (hseals : j'.seals = j.seals) : Grown j j' where
  ledger := hledger
  seals := hseals
  entries := by
    obtain ⟨later, he, -⟩ := h.entries
    simp [he]
  accounts := h.accounts
  watermark := h.watermark
  ranges id p hp := by
    obtain ⟨p', hp', -, he⟩ := h.ranges id p hp
    exact ⟨p', hp', he⟩

omit [DecidableEq H] in
/-- Recording: the books are the same, with more entries. -/
theorem Grown.ofBooks {j j' : Journal H P} (h : SameBooks j j') (he : j.entries.length ≤ j'.entries.length) :
    Grown j j' where
  ledger := h.ledger
  seals := h.seals
  entries := he
  accounts := by rw [h.accounts]; exact .refl _
  watermark := by rw [h.calendar]; exact .refl _
  ranges id p hp := ⟨p, by rw [h.calendar]; exact hp, rfl⟩

/-! ## Sealing a period that is due -/

theorem Chained.push_ok {j : Journal H P} (h : j.Chained) (hk : j.Kept) {id : PeriodId} {q : Period}
    (hs : j.calendar.checkSealable id = .ok q) (closing : TrialBalance P) :
    j.seals.push (j.buildSeal q closing id) = .ok (j.seals.add (j.buildSeal q closing id)) := by
  obtain ⟨hq, -, -, hafter⟩ := PeriodCalendar.checkSealable_eq_ok.1 hs
  have hself : (j.buildSeal q closing id).isSelfConsistent = true := decide_eq_true rfl
  have hnew : j.seals.periods.contains id = false := by
    -- a period that is in the chain ends by the watermark
    by_contra hin
    obtain ⟨p, hp, d, hd, hle⟩ := h.passed id (by simpa using hin)
    obtain rfl : q = p := by simpa [hq] using hp
    have hlt : d < q.end := by simpa [Option.mem_def.1 hd] using hafter
    exact absurd hle (not_le.2 hlt)
  have hlink : SealChain.checkLink j.seals.ledger j.seals.periods j.seals.seals.getLast? (j.buildSeal q closing id) =
      .ok () := by
    refine SealChain.checkLink_eq_ok.2 ⟨hself, (SealChain.verify_of_reachable h.pushed).1.symm, hnew, rfl, ?_⟩
    intro prev hprev
    obtain ⟨hentries, haccounts⟩ := size_buildSeal hk.posted.logged q closing id
    rw [hentries, haccounts]
    exact ⟨h.entries prev hprev, h.accounts prev hprev⟩
  rw [SealChain.push, hlink]

theorem Chained.sealed {j : Journal H P} (h : j.Chained) (hk : j.Kept) {id : PeriodId} {q : Period}
    {closing : TrialBalance P} (hs : j.calendar.checkSealable id = .ok q) :
    ({ j with
        seals := j.seals.add (j.buildSeal q closing id)
        calendar := j.calendar.store id { q with state := .sealed } } : Journal H P).Chained where
  pushed := by
    refine h.pushed.step (l := j.buildSeal q closing id) ?_
    show j.seals.add (j.buildSeal q closing id) = j.seals.offer (j.buildSeal q closing id)
    rw [SealChain.offer, h.push_ok hk hs closing]
  passed id' hid := by
    obtain ⟨hq, -, -, hafter⟩ := PeriodCalendar.checkSealable_eq_ok.1 hs
    have hmark : ∀ p : Period, p.end ≤ q.end → ∃ d ∈ (j.calendar.store id { q with state := .sealed }).sealedThrough,
        p.end ≤ d := fun p hp => ⟨q.end, PeriodCalendar.markSealedThrough_of_after rfl hafter, hp⟩
    rw [PeriodCalendar.get_store]
    split
    · exact ⟨_, rfl, hmark _ le_rfl⟩
    · rename_i hne
      have hin : j.seals.periods.contains id' = true := by
        obtain ⟨u, hu⟩ := OrdMap.contains_iff.1 hid
        rw [show (j.seals.add (j.buildSeal q closing id)).periods.get? id' = j.seals.periods.get? id' from
          OrdMap.get?_insert_ne hne] at hu
        exact OrdMap.contains_iff.2 ⟨u, hu⟩
      obtain ⟨p, hp, d, hd, hle⟩ := h.passed id' hin
      have hlt : d < q.end := by simpa [Option.mem_def.1 hd] using hafter
      exact ⟨p, hp, hmark p (hle.trans hlt.le)⟩
  entries s hs := by
    rw [show (j.seals.add (j.buildSeal q closing id)).seals.getLast? = _ from List.getLast?_concat] at hs
    cases hs
    exact (size_buildSeal hk.posted.logged q closing id).1.le
  accounts s hs := by
    rw [show (j.seals.add (j.buildSeal q closing id)).seals.getLast? = _ from List.getLast?_concat] at hs
    cases hs
    exact (size_buildSeal hk.posted.logged q closing id).2.le

/-! ## Every operation -/

theorem Chained.call {j : Journal H P} (h : j.Chained) (hk : j.Kept) (k : Call H P) : (j.after k).Chained := by
  have heff := j.after_effect k
  generalize j.after k = j' at heff
  have hext := heff.extends
  cases heff with
  | data => exact h.grown (.ofExtends hext rfl rfl)
  | recorded => exact h.grown (.ofExtends hext rfl rfl)
  | defined => exact h.grown (.ofExtends hext rfl rfl)
  | moved => exact h.grown (.ofExtends hext rfl rfl)
  | sealed sealable => exact h.sealed hk sealable

theorem Chained.mutate {j : Journal H P} (h : j.Chained) (hk : j.Kept) (m : Mutation H P) : (j.mutate m).Chained := by
  obtain ⟨new, he, -⟩ := j.mutate_entries m
  have hle : j.entries.length ≤ (j.mutate m).entries.length := by simp [he]
  cases m with
  | call k => exact h.call hk k
  | recordValidated entry =>
    refine h.grown (.ofBooks ?_ hle)
    rcases j.mutate_recordValidated entry with hsame | ⟨balances, -, hstored⟩
    · rw [hsame]
      exact .refl j
    · rw [hstored]
      exact j.sameBooks_store entry balances
  | recordBatch entries => exact h.grown (.ofBooks (j.recordBatch_frame entries).1 hle)

/-- Calls of the calendar keep the ranges, and the watermark does not go back. -/
theorem ranges_afterAll (ks : List PeriodCalendar.Call) (c : PeriodCalendar) :
    PeriodCalendar.NotBefore c.sealedThrough (c.afterAll ks).sealedThrough ∧
      ∀ id p, c.get id = some p → ∃ p', (c.afterAll ks).get id = some p' ∧ p'.end = p.end := by
  induction ks generalizing c with
  | nil => exact ⟨.refl _, fun id p hp => ⟨p, hp, rfl⟩⟩
  | cons k ks ih =>
    obtain ⟨hmark, hranges⟩ := ih (c.after k)
    refine ⟨(c.after_notBefore k).trans hmark, fun id p hp => ?_⟩
    have hone : ∃ p', (c.after k).get id = some p' ∧ p'.end = p.end := by
      rcases c.after_cases k with e | ⟨r, -, hd, e⟩ | ⟨r, q, -, hq, -, hend, e⟩ | ⟨id', t, q, -, hq, -, e⟩
      · exact ⟨p, by rw [e, hp], rfl⟩
      · have hne : r.id ≠ id := fun hid => by simp [(PeriodCalendar.define_eq_ok.1 hd).1, ← hid] at hp
        exact ⟨p, by rw [e, PeriodCalendar.get_add, if_neg hne, hp], rfl⟩
      · rw [e, PeriodCalendar.get_store]
        split
        · rename_i hid
          rw [hid, hp] at hq
          cases hq
          exact ⟨r, rfl, hend.symm⟩
        · exact ⟨p, hp, rfl⟩
      · rw [e]
        obtain ⟨p', hp', -, he⟩ := ranges_store hq t id p hp
        exact ⟨p', hp', he⟩
    obtain ⟨p', hp', he⟩ := hone
    obtain ⟨p'', hp'', he'⟩ := hranges id p' hp'
    exact ⟨p'', hp'', he'.trans he⟩

theorem Chained.operate {j : Journal H P} (h : j.Chained) (hk : j.Kept) {o : Operation H P} (ho : j.Borrows o) :
    (j.operate o).Chained := by
  cases o with
  | mutate m => exact h.mutate hk m
  | accountsMut accounts =>
    obtain ⟨ks, rfl⟩ := ho
    have hgrows := AccountRegistry.grows_of_run (AccountRegistry.run_afterAll j.accounts ks)
    exact h.grown ⟨rfl, rfl, le_rfl, hgrows, .refl _, fun id p hp => ⟨p, hp, rfl⟩⟩
  | calendarMut calendar =>
    obtain ⟨ks, rfl⟩ := ho
    obtain ⟨hmark, hranges⟩ := ranges_afterAll ks j.calendar
    exact h.grown ⟨rfl, rfl, le_rfl, .refl _, hmark, hranges⟩
  | withPolicy policy => exact h.grown ⟨rfl, rfl, le_rfl, .refl _, .refl _, fun id p hp => ⟨p, hp, rfl⟩⟩

theorem chained_of_reachable {ledger : LedgerId} {j : Journal H P} (hj : (bookkeeping ledger).Reachable j) :
    j.Kept ∧ j.Chained := by
  refine LTS.Inductive.reachable (T := bookkeeping ledger) (I := fun j => j.Kept ∧ j.Chained) ⟨?_, ?_⟩ hj
  · intro j h
    obtain rfl : j = new ledger := h
    exact ⟨kept_new ledger, chained_new ledger⟩
  · intro j o j' ⟨hk, hc⟩ st
    obtain ⟨hs, ho⟩ := LTS.restrict_step.1 st
    obtain ⟨rfl, hseals⟩ := LTS.restrict_step.1 hs
    exact ⟨hk.operate hseals, hc.operate hk ho⟩

/-! ## The result -/

/-- What `seal_period` does with a period that `check_sealable` accepts. -/
theorem sealPeriod_of_sealable {j : Journal H P} (h : j.Chained) (hk : j.Kept) {id : PeriodId} {q : Period}
    (hs : j.calendar.checkSealable id = .ok q) :
    ∃ closing, j.trialBalanceThroughDate q.end = .ok closing ∧
      j.seals.push (j.buildSeal q closing id) = .ok (j.seals.add (j.buildSeal q closing id)) ∧
      j.sealPeriod id = (.ok (j.buildSeal q closing id),
        { j with
          seals := j.seals.add (j.buildSeal q closing id)
          calendar := j.calendar.store id { q with state := .sealed } }) := by
  obtain ⟨closing, hclosing, -⟩ := hk.part_ok (List.filter_sublist : (through q.end j.entries).Sublist j.entries)
  have hclosing : j.trialBalanceThroughDate q.end = .ok closing := hclosing
  have hpush := h.push_ok hk hs closing
  refine ⟨closing, hclosing, hpush, ?_⟩
  obtain ⟨hq, hstate, -, -⟩ := PeriodCalendar.checkSealable_eq_ok.1 hs
  have hmove : j.calendar.transition id .sealed = .ok (j.calendar.store id { q with state := .sealed }) :=
    PeriodCalendar.transition_eq_ok.2 ⟨q, hq, by rw [hstate]; rfl, rfl⟩
  simp only [sealPeriod, hs, hclosing, hpush, hmove]

/-- **Sealing is all or nothing, and never blocked by the chain.** -/
theorem seal_iff_sealable {ledger : LedgerId} {j : Journal H P} (hj : (bookkeeping ledger).Reachable j) (id : PeriodId) :
    ((∃ s, (j.sealPeriod id).1 = .ok s) ↔ ∃ q, j.calendar.checkSealable id = .ok q) ∧
    (∀ q, j.calendar.checkSealable id = .ok q → ∃ closing, j.trialBalanceThroughDate q.end = .ok closing ∧
      ∃ seals, j.seals.push (j.buildSeal q closing id) = .ok seals) ∧
    (∀ s, (j.sealPeriod id).1 = .ok s → ∃ q, j.calendar.checkSealable id = .ok q ∧
      (j.sealPeriod id).2.seals.seals = j.seals.seals ++ [s] ∧ s.period = id ∧ s.isSelfConsistent = true ∧
      (j.sealPeriod id).2.seals.verify = .ok () ∧
      (j.sealPeriod id).2.calendar.get id = some { q with state := .sealed } ∧
      (j.sealPeriod id).2.calendar.sealedThrough = some q.end ∧ (j.sealPeriod id).2.entries = j.entries) ∧
    (∀ e, (j.sealPeriod id).1 = .error e → (j.sealPeriod id).2 = j) := by
  obtain ⟨hk, hc⟩ := chained_of_reachable hj
  refine ⟨⟨fun ⟨s, hs⟩ => ?_, fun ⟨q, hq⟩ => ?_⟩, fun q hq => ?_, fun s hs => ?_, fun e he => ?_⟩
  · rcases j.sealPeriod_cases id with ⟨e, he⟩ | ⟨q, closing, hq, -⟩
    · rw [he] at hs
      cases hs
    · exact ⟨q, hq⟩
  · obtain ⟨closing, -, -, h⟩ := sealPeriod_of_sealable hc hk hq
    exact ⟨_, congrArg Prod.fst h⟩
  · obtain ⟨closing, hclosing, hpush, -⟩ := sealPeriod_of_sealable hc hk hq
    exact ⟨closing, hclosing, _, hpush⟩
  · rcases j.sealPeriod_cases id with ⟨e, he⟩ | ⟨q, closing, hq, -, -, h⟩
    · rw [he] at hs
      cases hs
    · rw [h] at hs ⊢
      cases hs
      obtain ⟨-, -, -, hafter⟩ := PeriodCalendar.checkSealable_eq_ok.1 hq
      refine ⟨q, hq, rfl, rfl, decide_eq_true rfl, ?_, ?_, PeriodCalendar.markSealedThrough_of_after rfl hafter, rfl⟩
      · exact (SealChain.verify_of_reachable (hc.sealed hk hq).pushed).2
      · exact PeriodCalendar.get_store.trans (if_pos rfl)
  · rcases j.sealPeriod_cases id with ⟨e', h⟩ | ⟨q, closing, -, -, -, h⟩
    · exact congrArg Prod.snd h
    · rw [h] at he
      cases he

/-! ## March, with its sale -/

theorem run_bookkeeping (ledger : LedgerId) (j : Journal H P) (ks : List (Call H P)) :
    (bookkeeping ledger).Run j (ks.map fun k => .mutate (.call k)) (j.afterAll ks) := by
  induction ks generalizing j with
  | nil => exact .nil j
  | cons k ks ih => exact .cons ⟨⟨rfl, fromSeal_call j k⟩, trivial⟩ (ih _)

theorem reachable_marchClosing : (bookkeeping books).Reachable marchClosing :=
  ⟨new books, _, rfl, run_bookkeeping books (new books)
    [.register cash, .register sales, .definePeriod march, .record saleOfMarch, .transitionPeriod march.id .closing]⟩

set_option maxRecDepth 10000 in
/-- Not vacuous: March is due, and its seal is the first of the chain. -/
theorem marchClosing_seals : ∃ s, (marchClosing.sealPeriod march.id).1 = .ok s ∧
    (marchClosing.sealPeriod march.id).2.seals.seals = [s] ∧
    (marchClosing.sealPeriod march.id).2.seals.verify = .ok () ∧
    (marchClosing.sealPeriod march.id).2.calendar.sealedThrough = some march.end := by
  have hdue : marchClosing.calendar.checkSealable march.id = .ok { march with state := .closing } := by decide
  obtain ⟨hiff, -, hok, -⟩ := seal_iff_sealable reachable_marchClosing march.id
  obtain ⟨s, hs⟩ := hiff.2 ⟨_, hdue⟩
  obtain ⟨q, hq, hseals, -, -, hverify, -, hmark, -⟩ := hok s hs
  obtain rfl : { march with state := .closing } = q := Except.ok.inj (hdue.symm.trans hq)
  exact ⟨s, hs, hseals, hverify, hmark⟩

end DoubleEntry.L3.Journal
