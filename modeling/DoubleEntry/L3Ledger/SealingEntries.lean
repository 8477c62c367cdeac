import DoubleEntry.L3Ledger.Registry
import DoubleEntry.L3Ledger.Typestate

/-!
# What sealing accepts

`Entry.seal` collects errors in one pass over the postings, with totals in checked
arithmetic: an addition that overflows is reported and leaves the total as it was. The
entries it accepts are those of `Acceptable`, which says what is checked posting by
posting and by the sums over all of them.

**Assumptions.** The registry of the context is one that calls of a registry reach; calendar,
policy and draft are any.

**Results.**
* `tally_errors_iff`: with positive amounts no prefix of the postings adds up to more than
  all of them, so no addition overflows exactly when the totals fit.
* `seal_iff`: what is accepted, and that the order of the postings does not matter.
-/
namespace DoubleEntry.L3

open DoubleEntry.Core DoubleEntry.L1 DoubleEntry.L2

variable {H : Type} {S : EntryState} {P : Scale}

/-! ## Totals -/

theorem currencyTotal_nonneg {ps : List (Posting P)} (h : ∀ p ∈ ps, 0 < p.amount.minor) (d : Direction) (currency : Currency) :
    0 ≤ currencyTotal d currency ps := by
  refine List.sum_nonneg fun n hn => ?_
  obtain ⟨p, hp, rfl⟩ := List.mem_map.1 hn
  exact (h p (List.mem_filter.1 hp).1).le

theorem currencyTotal_perm {ps qs : List (Posting P)} (h : ps.Perm qs) (d : Direction) (currency : Currency) :
    currencyTotal d currency ps = currencyTotal d currency qs :=
  ((h.filter _).map _).sum_eq

namespace Entry

/-! ## What is accepted -/

/-- What a posting has to meet. -/
structure Bookable (ctx : SealContext) (date : Date) (p : Posting P) : Prop where
  positive : 0 < p.amount.minor
  account : ∃ a, ctx.accounts.get p.account = some a ∧ (∀ b ∈ ctx.accounts.accounts, ¬ b.path.Below a.path) ∧
    a.openedOn ≤ date ∧ ∀ closed, a.closedOn = some closed → date ≤ closed
  currency : ∀ allowed, ctx.policy.currency = .single allowed → p.currency = allowed
  dimensions : ∀ axis ∈ ctx.policy.requiredDimensions, p.dimensions.contains axis = true

/-- What an entry has to meet, by sums of integers. -/
structure Acceptable (ctx : SealContext) (e : Entry H S P) : Prop where
  count : 2 ≤ e.postings.length ∧ e.postings.length ≤ maxPostings
  postings : ∀ p ∈ e.postings, Bookable ctx e.bookingDate p
  balanced : ∀ currency, currencyTotal .debit currency e.postings = currencyTotal .credit currency e.postings
  bounded : ∀ currency d, currencyTotal d currency e.postings ≤ i64Max
  period : (ctx.calendar.stateOn e.bookingDate).acceptsPostings = true
  drift : ∀ maxDays, ctx.policy.maxValueDateDriftDays = some maxDays →
    |e.valueDate.toJulianDay - e.bookingDate.toJulianDay| ≤ maxDays

/-- The order of the postings does not matter. -/
theorem Acceptable.perm {ctx : SealContext} {e : Entry H S P} {ps : List (Posting P)} (h : Acceptable ctx e)
    (hps : ps.Perm e.postings) : Acceptable ctx ({ e with postings := ps } : Entry H S P) where
  count := by
    show 2 ≤ ps.length ∧ ps.length ≤ maxPostings
    rw [hps.length_eq]
    exact h.count
  postings p hp := h.postings p (hps.mem_iff.1 hp)
  balanced currency := by
    show currencyTotal .debit currency ps = currencyTotal .credit currency ps
    rw [currencyTotal_perm hps, currencyTotal_perm hps]
    exact h.balanced currency
  bounded currency d := (currencyTotal_perm hps d currency).trans_le (h.bounded currency d)
  period := h.period
  drift := h.drift

/-! ## The checks -/

variable {ctx : SealContext} {date : Date}

theorem isOpenOn_iff {a : Account} : a.isOpenOn date = true ↔ a.openedOn ≤ date ∧ ∀ closed, a.closedOn = some closed → date ≤ closed := by
  simp only [Account.isOpenOn, Bool.and_eq_true, decide_eq_true_iff]
  cases a.closedOn <;> simp

/-- A posting has no error of its own exactly when it is bookable. -/
theorem postingErrors_eq_nil (h : ctx.accounts.Indexed) {index : Nat} {p : Posting P} :
    postingErrors ctx date index p = [] ↔ Bookable ctx date p := by
  simp only [postingErrors, List.append_eq_nil_iff, ite_eq_right_iff, List.cons_ne_nil, imp_false, List.map_eq_nil_iff,
    List.filter_eq_nil_iff, Bool.not_eq_true', Bool.not_eq_false, Amount.isZero, Amount.isNegative, decide_eq_true_iff]
  constructor
  · rintro ⟨⟨⟨⟨hzero, hnegative⟩, haccount⟩, hcurrency⟩, hdimensions⟩
    refine ⟨by omega, ?_, fun allowed hallowed => ?_, hdimensions⟩
    · cases hget : ctx.accounts.get p.account with
      | none => simp [hget] at haccount
      | some a =>
        simp only [hget, List.append_eq_nil_iff, ite_eq_left_iff, List.cons_ne_nil, imp_false, not_not] at haccount
        exact ⟨a, rfl, (h.isLeaf_iff hget).1 haccount.1, isOpenOn_iff.1 haccount.2⟩
    · simpa [hallowed] using hcurrency
  · intro hp
    have hpositive := hp.positive
    obtain ⟨a, hget, hleaf, hopen⟩ := hp.account
    refine ⟨⟨⟨by omega, ?_⟩, ?_⟩, hp.dimensions⟩
    · simp [hget, (h.isLeaf_iff hget).2 hleaf, isOpenOn_iff.2 hopen]
    · cases hallowed : ctx.policy.currency with
      | multi => rfl
      | single allowed => simp [hp.currency allowed hallowed]

/-- A turn without an error of its own whose total fits reports nothing. -/
theorem tallyPosting_errors {ps : List (Posting P)} {t : Tally P} {x : Posting P × Nat} (h : TallyOf ps t)
    (ht : t.errors = []) (hx : postingErrors ctx date x.2 x.1 = [])
    (hfits : FitsI64 (currencyTotal x.1.direction x.1.currency (ps ++ [x.1]))) :
    (tallyPosting ctx date t x).errors = [] := by
  have hside : FitsI64 (((t.totals.get? x.1.currency).getD .zero).side x.1.direction + x.1.amount.minor) := by
    rw [h.side]
    rw [currencyTotal_concat, if_pos ⟨rfl, rfl⟩] at hfits
    exact hfits
  obtain ⟨b, hb⟩ := Balance.add_ok hside
  simp only [tallyPosting, hb, ht, hx, List.append_nil]

/-- **The loop reports nothing** exactly when every posting is bookable and every total
fits, whatever the order of the additions. -/
theorem tally_errors_iff (h : ctx.accounts.Indexed) {ps : List (Posting P)} :
    (ps.zipIdx.foldl (tallyPosting ctx date) ⟨[], .empty⟩).errors = [] ↔
      (∀ p ∈ ps, Bookable ctx date p) ∧ ∀ currency d, currencyTotal d currency ps ≤ i64Max := by
  constructor
  · intro herrors
    have htally := tallyOf_foldl herrors
    rw [List.zipIdx_map_fst] at htally
    refine ⟨fun p hp => ?_, fun currency d => ?_⟩
    · obtain ⟨i, hi⟩ := List.mem_iff_getElem?.1 hp
      have hnil : postingErrors ctx date i p = [] := List.eq_nil_iff_forall_not_mem.2 fun err herr => by
        have hmem := mem_errors_foldl (t := ⟨[], .empty⟩) (.inr ⟨(p, i), List.mem_zipIdx_iff_getElem?.2 hi, herr⟩)
        rw [herrors] at hmem
        cases hmem
      exact (postingErrors_eq_nil h).1 hnil
    · rw [← htally.side]
      exact Balance.side_le _ d
  · rintro ⟨hps, hbounded⟩
    induction ps using List.reverseRecOn with
    | nil => rfl
    | append_singleton ps p ih =>
      have hinit : ∀ q ∈ ps, Bookable ctx date q := fun q hq => hps q (List.mem_append_left _ hq)
      have hp := hps p (by simp)
      -- the postings before the last one add up to no more
      have hle : ∀ currency d, currencyTotal d currency ps ≤ i64Max := fun currency d => by
        refine le_trans ?_ (hbounded currency d)
        have hpositive := hp.positive
        rw [currencyTotal_concat]
        split <;> omega
      have herrors := ih hinit hle
      have htally := tallyOf_foldl herrors
      rw [List.zipIdx_map_fst] at htally
      rw [List.zipIdx_append, List.zipIdx_singleton, List.foldl_concat]
      refine tallyPosting_errors htally herrors ((postingErrors_eq_nil h).2 hp) ⟨?_, hbounded _ _⟩
      refine le_trans (by decide) (currencyTotal_nonneg (fun q hq => (hps q hq).positive) _ _)

theorem periodErrors_eq_nil : periodErrors ctx date = [] ↔ (ctx.calendar.stateOn date).acceptsPostings = true := by
  simp [periodErrors]

theorem driftErrors_eq_nil {value : Date} : driftErrors ctx date value = [] ↔
    ∀ maxDays, ctx.policy.maxValueDateDriftDays = some maxDays → |value.toJulianDay - date.toJulianDay| ≤ maxDays := by
  unfold driftErrors
  cases ctx.policy.maxValueDateDriftDays <;> simp

theorem violations_eq_nil (h : ctx.accounts.Indexed) {e : Entry H S P} : e.violations ctx = [] ↔ Acceptable ctx e := by
  have hcount : ((if e.postings.length < 2 then [ValidationError.tooFewPostings e.postings.length] else []) = [] ∧
      (if maxPostings < e.postings.length then [ValidationError.tooManyPostings e.postings.length] else []) = []) ↔
      2 ≤ e.postings.length ∧ e.postings.length ≤ maxPostings := by
    simp only [ite_eq_right_iff, List.cons_ne_nil, imp_false, not_lt]
  simp only [violations, List.append_eq_nil_iff]
  rw [hcount, tally_errors_iff h, periodErrors_eq_nil, driftErrors_eq_nil]
  constructor
  · rintro ⟨⟨⟨⟨hc, hps, hbounded⟩, htotals⟩, hperiod⟩, hdrift⟩
    have htally := tallyOf_foldl ((tally_errors_iff h).2 ⟨hps, hbounded⟩)
    rw [List.zipIdx_map_fst] at htally
    exact ⟨hc, hps, htally.unbalancedErrors_eq_nil.1 htotals, hbounded, hperiod, hdrift⟩
  · intro ha
    have htally := tallyOf_foldl ((tally_errors_iff h).2 ⟨ha.postings, ha.bounded⟩)
    rw [List.zipIdx_map_fst] at htally
    exact ⟨⟨⟨⟨ha.count, ha.postings, ha.bounded⟩, htally.unbalancedErrors_eq_nil.2 ha.balanced⟩, ha.period⟩, ha.drift⟩

theorem seal_ok_iff (h : ctx.accounts.Indexed) {e : Entry H .draft P} :
    (∃ e', e.seal ctx = .ok e') ↔ Acceptable ctx e := by
  rw [← violations_eq_nil h]
  constructor
  · rintro ⟨e', hok⟩
    exact (seal_eq_ok.1 hok).1
  · exact fun hv => ⟨_, seal_eq_ok.2 ⟨hv, rfl⟩⟩

/-- **What `seal` accepts**, against any registry that the calls of a registry can give; and
it accepts an entry in one order of its postings exactly when it does in another. -/
theorem seal_iff (e : Entry H .draft P) (ctx : SealContext) (h : AccountRegistry.calls.Reachable ctx.accounts) :
    ((∃ e', e.seal ctx = .ok e') ↔ Acceptable ctx e) ∧
    ∀ ps, ps.Perm e.postings → ((∃ e', { e with postings := ps }.seal ctx = .ok e') ↔ ∃ e', e.seal ctx = .ok e') := by
  have hindexed := AccountRegistry.indexed_inductive.reachable h
  refine ⟨seal_ok_iff hindexed, fun ps hps => ?_⟩
  rw [seal_ok_iff hindexed, seal_ok_iff hindexed]
  exact ⟨fun ha => ha.perm hps.symm, fun ha => ha.perm hps⟩

/-- The till is open, and the sale is in one currency. -/
def shop : SealContext :=
  ⟨AccountRegistry.new.afterAll [.register cash, .register sales], .new, ⟨.single .eur, [], some 0⟩⟩

/-- Not vacuous: the sale of March is accepted there. -/
theorem shop_accepts : (saleOfMarch.seal shop).toOption.isSome = true ∧
    ((∃ e', saleOfMarch.seal shop = .ok e') ↔ Acceptable shop saleOfMarch) ∧
    ∀ ps, ps.Perm saleOfMarch.postings →
      ((∃ e', { saleOfMarch with postings := ps }.seal shop = .ok e') ↔ ∃ e', saleOfMarch.seal shop = .ok e') :=
  ⟨by decide, seal_iff saleOfMarch shop ⟨.new, _, rfl, AccountRegistry.run_afterAll _ _⟩⟩

end Entry

end DoubleEntry.L3
