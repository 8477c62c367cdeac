import DoubleEntry.L3Ledger.BatchRun

/-!
# Checking that a journal balances

`verify_balanced` totals the maintained balances over all accounts, per currency
and layer, in `i64`. `Entry::seal` balances an entry per currency only, and bounds
no total over accounts. So the check needs more of the entries than `seal` gives
(`Closes`): each must balance in every layer, and what is debited in a currency
and layer has to fit. Over such steps it holds (`verifyBalanced_of_closes`).

**Assumptions.** Records and batches of sealed entries, each balanced in every layer, while the
debits of a currency and layer fit `i64` (`Closes`). Positive amounts and few enough postings are
what `seal` sees to.

**Results.**
* `verifyBalanced_eq_true`: when the check says yes, for any postings of positive amounts.
* `layerTotal_postingsOf`: entries that balance in every layer balance together.
* `verifyBalanced_of_closes`: runs of steps that meet `Closes`.
* `sealed_entries_unbalanced`: sealed entries for which the check says no, or fails.
-/
namespace DoubleEntry.L3

open DoubleEntry.Core DoubleEntry.L1 DoubleEntry.L2

variable {P : Scale}

/-! ## Totals over accounts -/

/-- What the postings move on one side in a currency and layer, over all accounts. -/
def layerTotal (d : Direction) (currency : Currency) (layer : Layer) (ps : List (Posting P)) : Int :=
  ((ps.filter fun p => p.currency = currency ∧ p.layer = layer ∧ p.direction = d).map (·.amount.minor)).sum

theorem layerTotal_append (d : Direction) (currency : Currency) (layer : Layer) (ps qs : List (Posting P)) :
    layerTotal d currency layer (ps ++ qs) = layerTotal d currency layer ps + layerTotal d currency layer qs := by
  unfold layerTotal
  rw [List.filter_append, List.map_append, List.sum_append]

theorem layerTotal_le {d : Direction} {currency : Currency} {layer : Layer} {ps qs : List (Posting P)}
    (h : ps.Sublist qs) (hn : ∀ p ∈ qs, 0 ≤ p.amount.minor) :
    layerTotal d currency layer ps ≤ layerTotal d currency layer qs := by
  refine ((h.filter _).map _).sum_le_sum fun n hm => ?_
  obtain ⟨p, hp, rfl⟩ := List.mem_map.1 hm
  exact hn p (List.mem_filter.1 hp).1

theorem sum_ite_of_nodup {keys : List BalanceKey} (hn : keys.Nodup) (key : BalanceKey) (n : Int) :
    (keys.map fun k => if key = k then n else 0).sum = if key ∈ keys then n else 0 := by
  rw [← List.sum_toFinset _ hn, Finset.sum_ite_eq]
  simp only [List.mem_toFinset]

/-- Summed over the keys of a currency and layer, the gross totals are those over all accounts. -/
theorem sum_gross {keys : List BalanceKey} (hn : keys.Nodup) {currency : Currency} {layer : Layer} (d : Direction)
    (hkeys : ∀ k ∈ keys, k.currency = currency ∧ k.layer = layer) {ps : List (Posting P)}
    (hall : ∀ p ∈ ps, p.currency = currency → p.layer = layer → p.key ∈ keys) :
    (keys.map fun k => gross d k ps).sum = layerTotal d currency layer ps := by
  induction ps using List.reverseRecOn with
  | nil => simp [layerTotal]
  | append_singleton ps p ih =>
    have hone : (keys.map fun k => if p.key = k ∧ p.direction = d then p.amount.minor else 0).sum =
        layerTotal d currency layer [p] := by
      by_cases hd : p.direction = d
      · simp only [hd, and_true, sum_ite_of_nodup hn]
        by_cases hk : p.currency = currency ∧ p.layer = layer
        · rw [if_pos (hall p (by simp) hk.1 hk.2)]
          simp [layerTotal, hk, hd]
        · rw [if_neg fun hm => hk (hkeys _ hm)]
          have : ¬ (p.currency = currency ∧ p.layer = layer ∧ p.direction = d) := fun h => hk ⟨h.1, h.2.1⟩
          simp [layerTotal, this]
      · simp [layerTotal, hd]
    have hsum : (keys.map fun k => gross d k (ps ++ [p])).sum = (keys.map fun k => gross d k ps).sum +
        (keys.map fun k => if p.key = k ∧ p.direction = d then p.amount.minor else 0).sum := by
      simp only [gross_concat]
      exact List.sum_map_add
    rw [hsum, layerTotal_append, ih fun q hq => hall q (List.mem_append_left _ hq), hone]

namespace Balance

theorem checkedAdd_eq_ok {b c x : Balance P} : b.checkedAdd c = .ok x ↔ ∀ d, x.side d = b.side d + c.side d := by
  unfold checkedAdd
  simp only [bind_eq_ok, Amount.checkedAdd_eq_ok]
  constructor
  · intro ⟨debits, hd, credits, hc, hx⟩
    cases hx
    exact fun d => by cases d; exacts [hd, hc]
  · exact fun h => ⟨x.debits, h .debit, x.credits, h .credit, rfl⟩

theorem checkedAdd_isSome {b c : Balance P} (hc : ∀ d, 0 ≤ c.side d) :
    (∃ x, b.checkedAdd c = .ok x) ↔ ∀ d, b.side d + c.side d ≤ i64Max := by
  refine ⟨fun ⟨x, hx⟩ d => checkedAdd_eq_ok.1 hx d ▸ x.side_le d, fun h => ?_⟩
  have hlow : ∀ d, i64Min ≤ b.side d := fun d => by
    cases d
    · exact b.debits.fits.1
    · exact b.credits.fits.1
  have hfits : ∀ d, FitsI64 (b.side d + c.side d) := fun d => ⟨by linarith [hlow d, hc d], h d⟩
  exact ⟨⟨⟨_, hfits .debit⟩, ⟨_, hfits .credit⟩⟩, checkedAdd_eq_ok.2 fun d => by cases d <;> rfl⟩

end Balance

/-- The rows of a currency and layer. -/
def rowsOf (currency : Currency) (layer : Layer) (rows : List (BalanceKey × Balance P)) :
    List (BalanceKey × Balance P) := rows.filter fun e => e.1.currency = currency ∧ e.1.layer = layer

/-- Adding up rows that are not negative returns when every side of the sum fits. -/
theorem foldlM_checkedAdd (currency : Currency) (layer : Layer) {rows : List (BalanceKey × Balance P)}
    (hn : ∀ e ∈ rows, ∀ d, 0 ≤ e.2.side d) (acc : Balance P) :
    (∀ b, rows.foldlM (fun acc e =>
        if e.1.currency = currency ∧ e.1.layer = layer then acc.checkedAdd e.2 else .ok acc) acc = .ok b →
      ∀ d, b.side d = acc.side d + ((rowsOf currency layer rows).map fun e => e.2.side d).sum) ∧
    ((∃ b, rows.foldlM (fun acc e =>
        if e.1.currency = currency ∧ e.1.layer = layer then acc.checkedAdd e.2 else .ok acc) acc = .ok b) ↔
      ∀ d, acc.side d + ((rowsOf currency layer rows).map fun e => e.2.side d).sum ≤ i64Max) := by
  induction rows generalizing acc with
  | nil =>
    refine ⟨fun b hb d => by cases hb; simp [rowsOf], fun _ d => ?_, fun _ => ⟨acc, rfl⟩⟩
    simpa [rowsOf] using acc.side_le d
  | cons e rows ih =>
    have hrows : ∀ e ∈ rows, ∀ d, 0 ≤ e.2.side d := fun e he => hn e (List.mem_cons_of_mem _ he)
    have hsum : ∀ d, 0 ≤ ((rowsOf currency layer rows).map fun e => e.2.side d).sum := fun d =>
      List.sum_nonneg fun n hm => by
        obtain ⟨e, he, rfl⟩ := List.mem_map.1 hm
        exact hrows e (List.mem_filter.1 he).1 d
    rw [List.foldlM_cons]
    by_cases hk : e.1.currency = currency ∧ e.1.layer = layer
    · have hcons : rowsOf currency layer (e :: rows) = e :: rowsOf currency layer rows := List.filter_cons_of_pos (by simpa)
      simp only [hcons, if_pos hk, bind_eq_ok, List.map_cons, List.sum_cons]
      constructor
      · intro b ⟨x, hx, hb⟩ d
        rw [(ih hrows x).1 b hb d, Balance.checkedAdd_eq_ok.1 hx d]
        ring
      · constructor
        · intro ⟨b, x, hx, hb⟩ d
          have := (ih hrows x).2.1 ⟨b, hb⟩ d
          rw [Balance.checkedAdd_eq_ok.1 hx d] at this
          linarith
        · intro h
          obtain ⟨x, hx⟩ := (Balance.checkedAdd_isSome (b := acc) (hn e List.mem_cons_self)).2 fun d => by
            linarith [h d, hsum d]
          obtain ⟨b, hb⟩ := (ih hrows x).2.2 fun d => by
            rw [Balance.checkedAdd_eq_ok.1 hx d]
            linarith [h d]
          exact ⟨b, x, hx, hb⟩
    · have hcons : rowsOf currency layer (e :: rows) = rowsOf currency layer rows :=
        List.filter_cons_of_neg (by simpa using hk)
      simp only [hcons, if_neg hk]
      exact ih hrows acc

theorem totals_spec {ps : List (Posting P)} {tb : TrialBalance P} (h : Totals ps tb)
    (hn : ∀ p ∈ ps, 0 ≤ p.amount.minor) (currency : Currency) (layer : Layer) :
    (∀ b, tb.totals currency layer = .ok b → ∀ d, b.side d = layerTotal d currency layer ps) ∧
    ((∃ b, tb.totals currency layer = .ok b) ↔ ∀ d, layerTotal d currency layer ps ≤ i64Max) := by
  have hrow : ∀ e ∈ tb.entries.entries, ∀ d, e.2.side d = gross d e.1 ps := fun e he d => by
    have hget : tb.get e.1 = some e.2 := OrdMap.mem_entries.1 he
    rw [← h.side e.1 d, TrialBalance.getOrZero, hget, Option.getD_some]
  have hpos : ∀ e ∈ tb.entries.entries, ∀ d, 0 ≤ e.2.side d := fun e he d => by
    rw [hrow e he d]
    exact gross_nonneg hn
  have hsum : ∀ d, ((rowsOf currency layer tb.entries.entries).map fun e => e.2.side d).sum =
      layerTotal d currency layer ps := by
    intro d
    have hnodup : ((rowsOf currency layer tb.entries.entries).map Prod.fst).Nodup := by
      refine ((List.filter_sublist.map Prod.fst).nodup ?_)
      exact (List.pairwise_map.2 tb.entries.increasing).imp fun hlt => ne_of_lt hlt
    rw [← @sum_gross _ _ hnodup currency layer d, List.map_map]
    · exact congrArg List.sum (List.map_congr_left fun e he => hrow e (List.mem_filter.1 he).1 d)
    · intro k hk
      obtain ⟨e, he, rfl⟩ := List.mem_map.1 hk
      simpa using (List.mem_filter.1 he).2
    · intro p hp hc hl
      obtain ⟨b, hb⟩ := Option.isSome_iff_exists.1 ((h.row p.key).2 ⟨p, hp, rfl⟩)
      refine List.mem_map.2 ⟨(p.key, b), List.mem_filter.2 ⟨OrdMap.mem_entries.2 hb, ?_⟩, rfl⟩
      exact decide_eq_true ⟨hc, hl⟩
  obtain ⟨hval, hok⟩ := foldlM_checkedAdd currency layer hpos (.zero : Balance P)
  simp only [Balance.side_zero, zero_add, hsum] at hval hok
  exact ⟨hval, hok⟩

theorem mem_currencies {tb : TrialBalance P} {currency : Currency} :
    currency ∈ tb.currencies ↔ ∃ key, (tb.get key).isSome ∧ key.currency = currency := by
  unfold TrialBalance.currencies
  rw [List.mem_dedup, List.mem_insertionSort, List.mem_map]
  simp only [OrdMap.mem_keys]
  rfl

/-! ## The check -/

namespace Journal

/-- The loop of `verify_balanced` over currencies and layers. -/
def verifyEach (tb : TrialBalance P) : List (Currency × Layer) → Except MoneyError Bool
  | [] => .ok true
  | (currency, layer) :: rest =>
    match tb.totals currency layer with
    | .error e => .error e
    | .ok b => if b.isBalanced then verifyEach tb rest else .ok false

variable {H : Type} [Blake3 H]

/-- mirrors src/journal.rs:912-922 -/
def verifyBalanced (j : Journal H P) : Except MoneyError Bool :=
  verifyEach j.balances (j.balances.currencies.flatMap fun currency => [(currency, .settled), (currency, .pending)])

theorem verifyEach_eq_true {tb : TrialBalance P} {l : List (Currency × Layer)} : verifyEach tb l = .ok true ↔
    ∀ e ∈ l, ∃ b, tb.totals e.1 e.2 = .ok b ∧ b.isBalanced = true := by
  induction l with
  | nil => simp [verifyEach]
  | cons e l ih =>
    obtain ⟨currency, layer⟩ := e
    simp only [verifyEach, List.forall_mem_cons]
    cases ht : tb.totals currency layer with
    | error e => simp
    | ok b =>
      simp only [Except.ok.injEq, exists_eq_left']
      by_cases hb : b.isBalanced = true
      · rw [if_pos hb, ih]
        simp [hb]
      · rw [if_neg hb]
        simp [hb]

/-- On file: positive amounts, in entries short enough for their sites. -/
def Postable (e : Entry H .balanced P) : Prop := (∀ p ∈ e.postings, 0 < p.amount.minor) ∧ Short e

/-- The check holds exactly when debits equal credits, over all accounts, in every
currency and layer, and fit. -/
theorem verifyBalanced_eq_true {j : Journal H P} (hj : j.Posted) (hp : ∀ e ∈ j.entries, Postable e) :
    j.verifyBalanced = .ok true ↔ ∀ currency layer,
      layerTotal .debit currency layer (postingsOf j.entries) = layerTotal .credit currency layer (postingsOf j.entries) ∧
      layerTotal .debit currency layer (postingsOf j.entries) ≤ i64Max := by
  have hpos : ∀ p ∈ postingsOf j.entries, 0 ≤ p.amount.minor := fun p hm => by
    obtain ⟨e, he, hpe⟩ := List.mem_flatMap.1 hm
    exact ((hp e he).1 p hpe).le
  have htotals : Totals (postingsOf j.entries) j.balances := totals_of_applyAll hj.folded
  have hone : ∀ currency layer, (∃ b, j.balances.totals currency layer = .ok b ∧ b.isBalanced = true) ↔
      layerTotal .debit currency layer (postingsOf j.entries) = layerTotal .credit currency layer (postingsOf j.entries) ∧
      layerTotal .debit currency layer (postingsOf j.entries) ≤ i64Max := by
    intro currency layer
    obtain ⟨hval, hok⟩ := totals_spec htotals hpos currency layer
    constructor
    · intro ⟨b, hb, hbal⟩
      have heq : b.side .debit = b.side .credit := congrArg Amount.minor (of_decide_eq_true hbal)
      rw [hval b hb, hval b hb] at heq
      exact ⟨heq, hok.1 ⟨b, hb⟩ .debit⟩
    · intro ⟨heq, hle⟩
      obtain ⟨b, hb⟩ := hok.2 fun d => by
        cases d
        · exact hle
        · exact heq ▸ hle
      refine ⟨b, hb, decide_eq_true (Amount.ext ?_)⟩
      have hd := hval b hb .debit
      rw [heq] at hd
      exact hd.trans (hval b hb .credit).symm
  unfold verifyBalanced
  rw [verifyEach_eq_true]
  constructor
  · intro h currency layer
    by_cases hc : currency ∈ j.balances.currencies
    · refine (hone currency layer).1 (h (currency, layer) (List.mem_flatMap.2 ⟨currency, hc, ?_⟩))
      cases layer <;> simp
    · -- nothing was posted in the currency
      have hzero : ∀ d, layerTotal d currency layer (postingsOf j.entries) = 0 := by
        intro d
        have hnil : (postingsOf j.entries).filter
            (fun p => p.currency = currency ∧ p.layer = layer ∧ p.direction = d) = [] := by
          refine List.filter_eq_nil_iff.2 fun p hm he => hc ?_
          have he := of_decide_eq_true he
          exact mem_currencies.2 ⟨p.key, (htotals.row p.key).2 ⟨p, hm, rfl⟩, he.1⟩
        unfold layerTotal
        rw [hnil]
        rfl
      rw [hzero, hzero]
      exact ⟨rfl, by decide⟩
  · intro h e _
    exact (hone e.1 e.2).2 (h e.1 e.2)

/-! ## Runs -/

variable [DecidableEq H]

/-- Produced by `Entry::seal`. -/
def FromSeal (e : Entry H .balanced P) : Prop := ∃ (draft : Entry H .draft P) (ctx : SealContext), draft.seal ctx = .ok e

omit [Blake3 H] [DecidableEq H] in
theorem FromSeal.postable {e : Entry H .balanced P} (h : FromSeal e) : Postable e := by
  obtain ⟨draft, ctx, hs⟩ := h
  have hlen := (Entry.length_of_seal hs).2
  have hshort : maxPostings ≤ 65536 := by decide
  exact ⟨(Entry.sealed_of_seal hs).positive, hlen.trans hshort⟩

/-- The entry balances in every currency and layer on its own. -/
def LayersBalance (e : Entry H .balanced P) : Prop :=
  ∀ currency layer, layerTotal .debit currency layer e.postings = layerTotal .credit currency layer e.postings

/-- What the check needs of a step: sealed entries that balance in every layer, and
debits that fit, over all accounts. -/
structure Closes (j : Journal H P) (m : Mutation H P) : Prop where
  fromSeal : ∀ e ∈ j.submitted m, FromSeal e
  layers : ∀ e ∈ j.submitted m, LayersBalance e
  fits : ∀ currency layer, layerTotal .debit currency layer (postingsOf (j.entries ++ j.submitted m)) ≤ i64Max

/-- What runs of such steps keep. -/
structure Closed (j : Journal H P) : Prop where
  posted : j.Posted
  postable : ∀ e ∈ j.entries, Postable e
  layers : ∀ e ∈ j.entries, LayersBalance e
  fits : ∀ currency layer, layerTotal .debit currency layer (postingsOf j.entries) ≤ i64Max

omit [DecidableEq H] in
theorem closed_new (ledger : LedgerId) (policy : LedgerPolicy) : Closed ((new ledger).withPolicy policy : Journal H P) where
  posted := posted_new ledger policy
  postable _ he := by cases he
  layers _ he := by cases he
  fits _ _ := show (0 : Int) ≤ i64Max by decide

theorem Closed.mutate {j : Journal H P} (h : j.Closed) {m : Mutation H P} (hm : j.Closes m) : (j.mutate m).Closed := by
  have hsub : ∀ e ∈ j.submitted m, Postable e := fun e he => (hm.fromSeal e he).postable
  obtain ⟨hposted, new, hentries, hnew⟩ := mutate_posted h.posted fun e he => (hsub e he).2
  refine ⟨hposted, fun e he => ?_, fun e he => ?_, fun currency layer => ?_⟩
  · rw [hentries] at he
    exact (List.mem_append.1 he).elim (h.postable e) fun he => hsub e (hnew.subset he)
  · rw [hentries] at he
    exact (List.mem_append.1 he).elim (h.layers e) fun he => hm.layers e (hnew.subset he)
  · refine le_trans (layerTotal_le ?_ fun p hp => ?_) (hm.fits currency layer)
    · rw [hentries]
      exact ((List.Sublist.refl j.entries).append hnew).flatMap _
    · obtain ⟨e, he, hpe⟩ := List.mem_flatMap.1 hp
      rcases List.mem_append.1 he with he | he
      · exact ((h.postable e he).1 p hpe).le
      · exact ((hsub e he).1 p hpe).le

omit [Blake3 H] [DecidableEq H] in
/-- Entries that balance in every layer balance together. -/
theorem layerTotal_postingsOf {entries : List (Entry H .balanced P)} (h : ∀ e ∈ entries, LayersBalance e)
    (currency : Currency) (layer : Layer) :
    layerTotal .debit currency layer (postingsOf entries) = layerTotal .credit currency layer (postingsOf entries) := by
  induction entries with
  | nil => rfl
  | cons e entries ih =>
    rw [postingsOf, List.flatMap_cons, layerTotal_append, layerTotal_append, h e List.mem_cons_self currency layer]
    exact congrArg _ (ih fun e he => h e (List.mem_cons_of_mem _ he))

/-- **The check holds where entries balance in every layer.** In every run of
records and batches of sealed entries that each balance in every currency and
layer, while the debits of a currency and layer fit, over all accounts. -/
theorem verifyBalanced_of_closes {ledger : LedgerId} {j : Journal H P}
    (hj : ((mutations ledger).restrict Closes).Reachable j) : j.verifyBalanced = .ok true := by
  have hclosed : j.Closed := by
    refine LTS.Inductive.reachable ⟨fun _ h => ?_, fun j m j' h st => ?_⟩ hj
    · obtain ⟨policy, rfl⟩ := h
      exact closed_new ledger policy
    · obtain ⟨rfl, hm⟩ := LTS.restrict_step.1 st
      exact h.mutate hm
  rw [verifyBalanced_eq_true hclosed.posted hclosed.postable]
  exact fun currency layer => ⟨layerTotal_postingsOf hclosed.layers currency layer, hclosed.fits currency layer⟩

/-! ## Sample runs -/

omit [DecidableEq H] in
/-- The calls of a journal submit sealed entries only. -/
theorem fromSeal_call (j : Journal H P) (k : Call H P) : ∀ e ∈ j.submitted (.call k), FromSeal e := by
  intro e he
  cases k with
  | record draft => exact ⟨draft, j.context, toOption_eq_some.1 (Option.mem_toList.1 he)⟩
  | _ => cases he

theorem run_calls (ledger : LedgerId) (j : Journal H P) (ks : List (Call H P)) :
    ((mutations ledger).restrict fun j m => ∀ e ∈ j.submitted m, FromSeal e).Run j (ks.map .call) (j.afterAll ks) := by
  induction ks generalizing j with
  | nil => exact .nil j
  | cons k ks ih => exact .cons ⟨rfl, fromSeal_call j k⟩ (ih _)

/-- Cash and sales registered, and March. -/
def marchDefined : List (Call Preimage cents) := [.register cash, .register sales, .definePeriod march]

theorem saleOfMarch_total (d : Direction) (currency : Currency) (layer : Layer) :
    layerTotal d currency layer saleOfMarch.postings = if currency = .eur ∧ layer = .settled then 1000 else 0 := by
  have hp : saleOfMarch.postings = [.debit cashId tenEuro .eur, .credit salesId tenEuro .eur] := rfl
  rw [hp]
  by_cases hc : currency = .eur ∧ layer = .settled
  · obtain ⟨rfl, rfl⟩ := hc
    cases d <;> decide
  · have hnil : ([.debit cashId tenEuro .eur, .credit salesId tenEuro .eur] : List (Posting cents)).filter
        (fun p => p.currency = currency ∧ p.layer = layer ∧ p.direction = d) = [] := by
      refine List.filter_eq_nil_iff.2 fun p hp he => hc ?_
      have he := of_decide_eq_true he
      rcases List.mem_pair.1 hp with rfl | rfl
      · exact ⟨he.1.symm, he.2.1.symm⟩
      · exact ⟨he.1.symm, he.2.1.symm⟩
    rw [layerTotal, hnil, if_neg hc]
    rfl

set_option maxRecDepth 10000 in
/-- Not vacuous: the sale is recorded. -/
theorem march_sale_verified : ((((new books).withPolicy .permissive).afterAll marchDefined).mutate
    (.call (.record saleOfMarch)) : Journal Preimage cents).verifyBalanced = .ok true := by
  have hseal : (((new books).withPolicy .permissive).afterAll marchDefined : Journal Preimage cents).submitted
      (.call (.record saleOfMarch)) = [saleOfMarch.withState .balanced] := by decide
  have hempty : (((new books).withPolicy .permissive).afterAll marchDefined : Journal Preimage cents).entries = [] := by
    decide
  have hdata : ∀ {j : Journal Preimage cents} {k : Call Preimage cents}, j.entries = [] → j.submitted (.call k) = [] →
      Closes j (.call k) := fun hj hk =>
    ⟨fromSeal_call _ _, by rw [hk]; exact fun _ he => (List.not_mem_nil he).elim, by
      rw [hj, hk]
      exact fun _ _ => show (0 : Int) ≤ i64Max by decide⟩
  have hsale : Closes (((new books).withPolicy .permissive).afterAll marchDefined) (.call (.record saleOfMarch)) := by
    refine ⟨fromSeal_call _ _, ?_, ?_⟩
    · rw [hseal]
      intro e he currency layer
      rw [List.mem_singleton.1 he]
      exact (saleOfMarch_total .debit currency layer).trans (saleOfMarch_total .credit currency layer).symm
    · rw [hseal, hempty]
      intro currency layer
      have hle : (if currency = .eur ∧ layer = .settled then (1000 : Int) else 0) ≤ i64Max := by split <;> decide
      exact (saleOfMarch_total .debit currency layer).trans_le hle
  have hdefine : ((mutations books).restrict Closes).Run ((new books).withPolicy .permissive) (marchDefined.map .call)
      (((new books).withPolicy .permissive).afterAll marchDefined) :=
    .cons ⟨rfl, hdata rfl rfl⟩ (.cons ⟨rfl, hdata (by decide) rfl⟩ (.cons ⟨rfl, hdata (by decide) rfl⟩ (.nil _)))
  exact verifyBalanced_of_closes ⟨_, _, ⟨.permissive, rfl⟩, hdefine.append (.single ⟨rfl, hsale⟩)⟩

/-- Debited as settled, credited as pending. -/
def halfPending : Entry Preimage .draft cents :=
  ((Entry.new ⟨⟨7, by decide⟩⟩ ⟨[7], rfl⟩ march.end).post (.debit cashId tenEuro .eur)).post
    { Posting.credit salesId tenEuro .eur with layer := .pending }

def allEuro : Amount cents := ⟨i64Max, by decide⟩

/-- The largest amount between two accounts. -/
def transfer (n : Fin 256) (debit credit : AccountId) : Entry Preimage .draft cents :=
  { sale n march.end with postings := [.debit debit allEuro .eur, .credit credit allEuro .eur] }

def bankId : AccountId := ⟨2, by decide⟩
def feesId : AccountId := ⟨3, by decide⟩

/-- Four accounts, and every euro moved twice. -/
def twoTransfers : List (Call Preimage cents) :=
  [.register cash, .register sales, .register { cash with path := ⟨["Assets", "Bank"], rfl⟩ },
    .register { sales with path := ⟨["Income", "Fees"], rfl⟩ }, .definePeriod march,
    .record (transfer ⟨8, by decide⟩ cashId salesId), .record (transfer ⟨9, by decide⟩ bankId feesId)]

set_option maxRecDepth 10000 in
/-- **Sealed entries that do not check out.** A journal of one sealed entry that
balances across layers only, and one whose totals over accounts overflow. -/
theorem sealed_entries_unbalanced :
    (∃ j : Journal Preimage cents, ((mutations books).restrict fun j m => ∀ e ∈ j.submitted m, FromSeal e).Reachable j ∧
      j.verifyBalanced = .ok false) ∧
    ∃ j : Journal Preimage cents, ((mutations books).restrict fun j m => ∀ e ∈ j.submitted m, FromSeal e).Reachable j ∧
      j.verifyBalanced = .error .overflow := by
  refine ⟨⟨_, ⟨_, _, ⟨.permissive, rfl⟩, run_calls books _ (marchDefined ++ [.record halfPending])⟩, ?_⟩,
    _, ⟨_, _, ⟨.permissive, rfl⟩, run_calls books _ twoTransfers⟩, ?_⟩
  · exact toOption_eq_some.1 (by decide)
  · exact error?_eq_some.1 (by decide)

end Journal

end DoubleEntry.L3
