import DoubleEntry.L3Ledger.Checkpoints
import DoubleEntry.L3Ledger.Corrections
import DoubleEntry.L3Ledger.Sealing

/-!
# Balance assertions

An assertion is a claim from outside the ledger, such as a bank statement: the signed net
of a key now, over a prefix of the log, or by a booking date. It is checked against a read
of the balance, which may take any of three paths (`BalanceReads`).

The outcome is that of exact arithmetic over the postings meant, and the only error is a
difference out of range (`Kept.assertion_cases`). It does not change with what is recorded
after the prefix, or booked after a watermark that has passed the date (`assertions_exact`).

**Assumptions.** The journal is one that operations on sealed entries reach; for the last
part, ten calls of a journal and its registry (`Call`).

**Results.**
* `check_cases`, `onSide_eq_ok`: what the check computes, in the integers.
* `Kept.checkAssertion_eq`: each of the three paths reads the fold of the entries meant.
* `assertions_exact`: held, failed or an overflow, exactly when exact arithmetic says so; and
  the outcome stays.
-/
namespace DoubleEntry.L3

open DoubleEntry.Core DoubleEntry.L1 DoubleEntry.L2

variable {P : Scale}

/-- mirrors src/checkpoint.rs:107-122 -/
inductive AssertAt
  | now
  | ofPrefix (size : Nat)
  | onDate (date : Date)
  deriving DecidableEq

/-- mirrors src/checkpoint.rs:131-138 -/
structure BalanceAssertion (P : Scale) where
  key : BalanceKey
  «at» : AssertAt
  expected : Amount P

/-- mirrors src/checkpoint.rs:198-213 -/
inductive AssertionOutcome (P : Scale)
  | held (actual : Balance P)
  | failed (expected actual difference : Amount P)
  deriving DecidableEq

/-- mirrors src/checkpoint.rs:218-220 -/
def AssertionOutcome.isHeld : AssertionOutcome P → Bool
  | .held _ => true
  | .failed .. => false

namespace BalanceAssertion

/-- mirrors src/checkpoint.rs:143-149 -/
def net (key : BalanceKey) (expected : Amount P) : BalanceAssertion P := ⟨key, .now, expected⟩

/-- mirrors src/checkpoint.rs:152-162 -/
def onSide (key : BalanceKey) (direction : Direction) (magnitude : Amount P) :
    Except MoneyError (BalanceAssertion P) :=
  match direction with
  | .debit => .ok (net key magnitude)
  | .credit => magnitude.checkedNeg.map fun expected => net key expected

/-- A magnitude on a side is a signed net; only the least amount has no opposite. -/
theorem onSide_eq_ok {key : BalanceKey} {d : Direction} {magnitude : Amount P} {a : BalanceAssertion P} :
    onSide key d magnitude = .ok a ↔ a.key = key ∧ a.at = .now ∧
      a.expected.minor = if d = .debit then magnitude.minor else -magnitude.minor := by
  obtain ⟨k, point, expected⟩ := a
  cases d with
  | debit =>
    simp only [onSide, net, Except.ok.injEq, mk.injEq, if_pos]
    exact ⟨fun ⟨hk, hp, he⟩ => ⟨hk.symm, hp.symm, congrArg _ he.symm⟩, fun ⟨hk, hp, he⟩ =>
      ⟨hk.symm, hp.symm, Amount.ext he.symm⟩⟩
  | credit =>
    simp only [onSide, map_eq_ok, net, mk.injEq, reduceCtorEq, if_false, Amount.checkedNeg, Amount.checked_eq_ok]
    exact ⟨fun ⟨x, hx, hk, hp, he⟩ => ⟨hk.symm, hp.symm, he ▸ hx⟩, fun ⟨hk, hp, he⟩ => ⟨expected, he, hk.symm, hp.symm, rfl⟩⟩

/-- mirrors src/checkpoint.rs:166-169 -/
def overPrefix (a : BalanceAssertion P) (size : Nat) : BalanceAssertion P := { a with «at» := .ofPrefix size }

/-- mirrors src/checkpoint.rs:175-178 -/
def onDate (a : BalanceAssertion P) (date : Date) : BalanceAssertion P := { a with «at» := .onDate date }

/-- mirrors src/checkpoint.rs:181-192 -/
def check (a : BalanceAssertion P) (actual : Balance P) : Except MoneyError (AssertionOutcome P) := do
  let actualNet ← actual.signedNet
  if actualNet = a.expected then .ok (.held actual)
  else .ok (.failed a.expected actualNet (← actualNet.checkedSub a.expected))

theorem check_cases (a : BalanceAssertion P) {actual : Balance P} {net : Int}
    (hnet : actual.side .debit - actual.side .credit = net) (hd : 0 ≤ actual.side .debit) (hc : 0 ≤ actual.side .credit) :
    (net = a.expected.minor ∧ a.check actual = .ok (.held actual)) ∨
    (net ≠ a.expected.minor ∧ FitsI64 (net - a.expected.minor) ∧ ∃ found difference : Amount P, found.minor = net ∧
      difference.minor = net - a.expected.minor ∧ a.check actual = .ok (.failed a.expected found difference)) ∨
    (¬ FitsI64 (net - a.expected.minor) ∧ a.check actual = .error .overflow) := by
  -- both totals are magnitudes, so their difference is in range
  have hfits : FitsI64 net := by
    have hdle := actual.side_le .debit
    have hcle := actual.side_le .credit
    have hrange : i64Min + i64Max < 0 := by decide
    exact ⟨by omega, by omega⟩
  obtain ⟨found, hfound⟩ : ∃ found : Amount P, found.minor = net := ⟨⟨net, hfits⟩, rfl⟩
  have hread : actual.signedNet = .ok found := Amount.checkedSub_eq_ok.2 (hfound.trans hnet.symm)
  have hcheck : a.check actual = if found = a.expected then .ok (.held actual) else
      (found.checkedSub a.expected).map fun difference => .failed a.expected found difference := by
    unfold check
    rw [hread]
    by_cases hexp : found = a.expected
    · rw [if_pos hexp]
      exact if_pos hexp
    · rw [if_neg hexp]
      refine (if_neg hexp).trans ?_
      cases found.checkedSub a.expected <;> rfl
  rw [hcheck]
  by_cases heq : net = a.expected.minor
  · exact .inl ⟨heq, if_pos (Amount.ext (hfound.trans heq))⟩
  · have hne : found ≠ a.expected := fun e => heq (hfound ▸ congrArg Amount.minor e)
    rw [if_neg hne]
    by_cases hdiff : FitsI64 (net - a.expected.minor)
    · have hsub : found.checkedSub a.expected = .ok ⟨net - a.expected.minor, hdiff⟩ :=
        Amount.checkedSub_eq_ok.2 (by rw [hfound])
      exact .inr (.inl ⟨heq, hdiff, found, _, hfound, rfl, by rw [hsub]; rfl⟩)
    · have hsub : found.checkedSub a.expected = .error .overflow := by
        rw [Amount.checkedSub, hfound, Amount.checked, dif_neg hdiff]
      exact .inr (.inr ⟨hdiff, by rw [hsub]; rfl⟩)

end BalanceAssertion

namespace Journal

variable {H : Type} [Blake3 H]

/-- mirrors src/journal.rs:1296-1306 -/
def checkAssertion (j : Journal H P) (assertion : BalanceAssertion P) : Except MoneyError (AssertionOutcome P) := do
  let actual ←
    match assertion.at with
    | .now => j.balance assertion.key none
    | .ofPrefix size => j.balance assertion.key (some size)
    | .onDate date => j.balanceOnDate assertion.key date
  assertion.check actual

/-- The entries an assertion is about. -/
def meant (entries : List (Entry H .balanced P)) : AssertAt → List (Entry H .balanced P)
  | .now => entries
  | .ofPrefix size => entries.take size
  | .onDate date => through date entries

omit [Blake3 H] in
theorem meant_sublist (entries : List (Entry H .balanced P)) (point : AssertAt) : (meant entries point).Sublist entries := by
  cases point with
  | now => exact .refl _
  | ofPrefix size => exact List.take_sublist size entries
  | onDate date => exact List.filter_sublist

/-- Every path reads the fold of the entries meant. -/
theorem Kept.checkAssertion_eq {j : Journal H P} (h : j.Kept) (a : BalanceAssertion P) :
    j.checkAssertion a = (foldOf (meant j.entries a.at) a.key).bind a.check := by
  unfold checkAssertion
  cases hat : a.at with
  | now =>
    show (j.balance a.key none).bind a.check = _
    rw [show foldOf (meant j.entries .now) a.key = .ok (j.balances.getOrZero a.key) from h.foldOf_eq a.key]
    rfl
  | ofPrefix size =>
    show (j.balance a.key (some size)).bind a.check = _
    rw [h.balance_eq]
    rfl
  | onDate date =>
    show (j.balanceOnDate a.key date).bind a.check = _
    rw [h.balanceOnDate_eq]
    rfl

theorem Kept.assertion_cases {j : Journal H P} (h : j.Kept) (a : BalanceAssertion P) {net : Int}
    (hnet : L3.net a.key (postingsOf (meant j.entries a.at)) = net) :
    (net = a.expected.minor ∧ ∃ actual : Balance P, (∀ d, actual.side d = gross d a.key (postingsOf (meant j.entries a.at))) ∧
      j.checkAssertion a = .ok (.held actual)) ∨
    (net ≠ a.expected.minor ∧ FitsI64 (net - a.expected.minor) ∧ ∃ found difference : Amount P, found.minor = net ∧
      difference.minor = net - a.expected.minor ∧ j.checkAssertion a = .ok (.failed a.expected found difference)) ∨
    (¬ FitsI64 (net - a.expected.minor) ∧ j.checkAssertion a = .error .overflow) := by
  have hsub := meant_sublist j.entries a.at
  obtain ⟨tb, htb, hfold⟩ := h.part_ok hsub
  have hside : ∀ d, (tb.getOrZero a.key).side d = gross d a.key (postingsOf (meant j.entries a.at)) :=
    (totals_of_applyAll htb).side a.key
  have hnonneg := h.part_nonneg hsub htb a.key
  have hread : j.checkAssertion a = a.check (tb.getOrZero a.key) := by
    rw [h.checkAssertion_eq, hfold]
    rfl
  rw [hread]
  have hnet' : (tb.getOrZero a.key).side .debit - (tb.getOrZero a.key).side .credit = net := by
    rw [hside, hside]
    exact hnet
  rcases a.check_cases hnet' (hnonneg .debit) (hnonneg .credit) with ⟨he, hc⟩ | hf | ho
  · exact .inl ⟨he, _, hside, hc⟩
  · exact .inr (.inl hf)
  · exact .inr (.inr ho)

/-- What is booked by a date that the watermark has passed. -/
theorem Extends.through_eq {j j' : Journal H P} (h : Extends j j') {date : Date}
    (hd : ∃ d ∈ j.calendar.sealedThrough, date ≤ d) : through date j'.entries = through date j.entries := by
  obtain ⟨later, he, hafter⟩ := h.entries
  obtain ⟨d, hd, hle⟩ := hd
  have hnone : through date later = [] :=
    List.filter_eq_nil_iff.2 fun e hm => by
      have hlt := hafter e hm d hd
      simpa using hle.trans_lt hlt
  rw [he, through, List.filter_append]
  exact (congrArg (through date j.entries ++ ·) hnone).trans (List.append_nil _)

variable [DecidableEq H]

/-- **Assertions are exact, and their outcomes stay.** In a reachable journal the outcome is
held, with the exact gross totals, if the net of the postings meant is the one claimed; it is
failed, with the exact difference, if that is in range; and an overflow otherwise. Over a
prefix there was, the outcome is the same after any operations; and by a date that the
watermark has passed, after any calls. -/
theorem assertions_exact {ledger : LedgerId} {j : Journal H P} (hj : (sealedOperations ledger).Reachable j)
    (a : BalanceAssertion P) :
    (∀ actual, j.checkAssertion a = .ok (.held actual) ↔
      L3.net a.key (postingsOf (meant j.entries a.at)) = a.expected.minor ∧
      ∀ d, actual.side d = gross d a.key (postingsOf (meant j.entries a.at))) ∧
    (∀ expected found difference, j.checkAssertion a = .ok (.failed expected found difference) ↔
      expected = a.expected ∧ difference.minor ≠ 0 ∧ found.minor = expected.minor + difference.minor ∧
      found.minor = L3.net a.key (postingsOf (meant j.entries a.at))) ∧
    (∀ e, j.checkAssertion a = .error e ↔ e = .overflow ∧
      ¬ FitsI64 (L3.net a.key (postingsOf (meant j.entries a.at)) - a.expected.minor)) ∧
    (∀ (j' : Journal H P) (os : List (Operation H P)) (size : Nat), (sealedOperations ledger).Run j os j' →
      size ≤ j.entries.length → j'.checkAssertion (a.overPrefix size) = j.checkAssertion (a.overPrefix size)) ∧
    ∀ (j' : Journal H P) (ks : List (Call H P)) (date : Date), (calls ledger).Run j ks j' →
      (∃ d ∈ j.calendar.sealedThrough, date ≤ d) → j'.checkAssertion (a.onDate date) = j.checkAssertion (a.onDate date) := by
  have h := kept_of_reachable hj
  refine ⟨fun actual => ?_, fun expected found difference => ?_, fun e => ?_, fun j' os size r hle => ?_,
    fun j' ks date r hd => ?_⟩
  · rcases h.assertion_cases a rfl with ⟨he, b, hside, hc⟩ | ⟨hne, -, _, _, -, -, hc⟩ | ⟨hout, hc⟩ <;> rw [hc]
    · exact ⟨fun hx => by cases hx; exact ⟨he, hside⟩, fun hx =>
        congrArg (fun b => Except.ok (AssertionOutcome.held b)) (Balance.ext_side fun d => (hside d).trans (hx.2 d).symm)⟩
    · exact iff_of_false nofun fun hx => hne hx.1
    · exact iff_of_false nofun fun hx => hout (by rw [hx.1, sub_self]; decide)
  · rcases h.assertion_cases a rfl with ⟨he, b, hside, hc⟩ | ⟨hne, -, found', difference', hf, hd, hc⟩ | ⟨hout, hc⟩ <;> rw [hc]
    · refine iff_of_false nofun fun hx => ?_
      obtain ⟨rfl, hnz, hsum, hfound⟩ := hx
      exact hnz (by omega)
    · constructor
      · intro hx
        cases hx
        exact ⟨rfl, by omega, by omega, hf⟩
      · rintro ⟨rfl, -, hsum, hfound⟩
        obtain rfl : found = found' := Amount.ext (hfound.trans hf.symm)
        obtain rfl : difference = difference' := Amount.ext (by omega)
        rfl
    · refine iff_of_false nofun fun hx => hout ?_
      obtain ⟨rfl, -, hsum, hfound⟩ := hx
      rw [← hfound, hsum, add_sub_cancel_left]
      exact difference.fits
  · rcases h.assertion_cases a rfl with ⟨he, b, hside, hc⟩ | ⟨hne, hfits, _, _, -, -, hc⟩ | ⟨hout, hc⟩ <;> rw [hc]
    · exact iff_of_false nofun fun hx => hx.2 (by rw [he, sub_self]; decide)
    · exact iff_of_false nofun fun hx => hx.2 hfits
    · exact ⟨fun hx => by cases hx; exact ⟨rfl, hout⟩, fun hx => by rw [hx.1]⟩
  · have htake : j'.entries.take size = j.entries.take size := by
      obtain ⟨later, he⟩ := run_extends h r
      rw [← he, List.take_append_of_le_length hle]
    rw [(kept_of_reachable (hj.run r)).checkAssertion_eq, h.checkAssertion_eq]
    exact congrArg (fun l => (foldOf l a.key).bind _) htake
  · rw [((kept_calls ledger).run r h).checkAssertion_eq, h.checkAssertion_eq]
    exact congrArg (fun l => (foldOf l a.key).bind _) ((extends_of_run r).through_eq hd)

/-! ## The statement of March -/

/-- The bank says ten euro. -/
def marchStatement : BalanceAssertion cents := (BalanceAssertion.net ⟨cashId, .eur, .settled⟩ tenEuro).onDate march.end

def marchBooks : Journal Preimage cents := marchClosing.after (.sealPeriod march.id)

theorem reachable_marchBooks : (sealedOperations books).Reachable marchBooks :=
  (reachable_marchClosing.of_restrict).run (run_sealedCalls books marchClosing [.sealPeriod march.id])

set_option maxRecDepth 10000 in
theorem marchBooks_entries : marchBooks.entries = [saleOfMarch.withState .balanced] ∧
    march.end ∈ marchBooks.calendar.sealedThrough := by
  have hdue : marchClosing.calendar.checkSealable march.id = .ok { march with state := .closing } := by decide
  have hentries : marchClosing.entries = [saleOfMarch.withState .balanced] := by decide
  obtain ⟨hk, hc⟩ := chained_of_reachable reachable_marchClosing
  obtain ⟨closing, -, -, hseal⟩ := sealPeriod_of_sealable hc hk hdue
  have hafter : marchBooks = (marchClosing.sealPeriod march.id).2 := rfl
  rw [hafter, hseal]
  have hmark : PeriodCalendar.markSealedThrough marchClosing.calendar.sealedThrough { march with state := .sealed } =
      some march.end := PeriodCalendar.markSealedThrough_of_after rfl (PeriodCalendar.checkSealable_eq_ok.1 hdue).2.2.2
  exact ⟨hentries, hmark⟩

set_option maxRecDepth 10000 in
/-- Not vacuous: it holds of the sealed month, and still does after April. -/
theorem march_statement_holds : ∃ actual, marchBooks.checkAssertion marchStatement = .ok (.held actual) ∧
    actual.side .debit = 1000 ∧ (marchBooks.afterAll aprilCalls).checkAssertion marchStatement = .ok (.held actual) := by
  obtain ⟨hentries, hmark⟩ := marchBooks_entries
  obtain ⟨hheld, -, -, -, hstays⟩ := assertions_exact reachable_marchBooks marchStatement
  have hdebit : gross .debit marchStatement.key (postingsOf (meant marchBooks.entries marchStatement.at)) = 1000 := by
    rw [hentries]
    decide
  have hcredit : gross .credit marchStatement.key (postingsOf (meant marchBooks.entries marchStatement.at)) = 0 := by
    rw [hentries]
    decide
  have hholds := (hheld ⟨tenEuro, .zero⟩).2 ⟨by rw [L3.net, hdebit, hcredit]; decide, fun d => by
    cases d
    · exact hdebit.symm
    · exact hcredit.symm⟩
  exact ⟨_, hholds, rfl, (hstays _ aprilCalls march.end (run_afterAll books _ aprilCalls) ⟨_, hmark, le_rfl⟩).trans hholds⟩

end Journal

end DoubleEntry.L3
