import DoubleEntry.L4Store.Paging

/-!
# Three readers of balances

`balance`, `trial_balance` and `balances` are three queries for one definition, the fold of
the first entries of the log. On the SQL stores each is a sum over rows of its own; in memory
one is a row that is maintained, one a fold over the sites of a key and one a selection.

`ReadersAgree` states the definition once. The readers of a store in memory meet it in every
reachable state, and so do those of a SQL store while its totals fit, whatever was appended
inline, appended to be sequenced later and sequenced (`readers_agree`).

**What is asked for.** `balances` of SQLite has a parameter for each account it names. A list
longer than the parameters a statement can have is refused (`Backend.Asks`); the other readers
and the other stores have no such bound.

**What fits.** The sums of SQL are read back as 64 bits. `Tables.Fits` bounds the gross totals of
all rows by the calls that add them; in memory `append` refuses a total that does not fit, and
nothing has to be asked.
-/
namespace DoubleEntry.L4

open DoubleEntry.Core DoubleEntry.L1 DoubleEntry.L2 DoubleEntry.L3

variable {H : Type} {P : Scale}

/-! ## Balances of several accounts -/

/-- SQLITE_MAX_VARIABLE_NUMBER, the parameters a statement can have. -/
def maxVariableNumber : Nat := 32766

/-- The lists of accounts that one query can ask for. SQLite has a placeholder for each account,
from `?4` on; Postgres binds one array. -/
def Backend.Asks : Backend → List AccountId → Prop
  | .sqlite, accounts => accounts.length + 3 ≤ maxVariableNumber
  | .postgres, _ => True

instance (B : Backend) (accounts : List AccountId) : Decidable (B.Asks accounts) := by
  cases B <;> unfold Backend.Asks <;> infer_instance

/-- The rows of the query for the accounts wanted; for none of them SQLite does not ask.
mirrors src/storage/sqlite.rs:1620-1665, src/storage/postgres.rs:1850-1889 -/
def Tables.balances (B : Backend) (t : Tables H P) (accounts : List AccountId) (currency : Currency) (layer : Layer)
    (size : Option Nat) : Except SqlError (OrdMap AccountId (Balance P)) :=
  if ¬ B.Asks accounts then .error .database
  else
    let wanted := accounts.map B.handle
    let postings := ((t.sequencedBelow (prefixBound size)).flatMap (·.entry.postings)).filter fun p =>
      wanted.contains p.account ∧ p.currency = currency ∧ p.layer = layer
    (Tables.sumByKey postings).map fun rows =>
      rows.entries.entries.foldl (fun out row => out.insert row.1.account row.2) .empty

/-- mirrors src/storage.rs:1154-1178 -/
def MemoryStore.balances [Blake3 H] (j : Journal H P) (accounts : List AccountId) (currency : Currency) (layer : Layer)
    (size : Option Nat) : Except MoneyError (OrdMap AccountId (Balance P)) :=
  (j.trialBalance size).map fun tb =>
    accounts.foldl (fun out account => (tb.get ⟨account, currency, layer⟩).elim out (out.insert account)) .empty

/-! ## The definition -/

/-- The first entries, or all of them. -/
def firstEntries (entries : List (Entry H .balanced P)) (size : Option Nat) : List (Entry H .balanced P) :=
  size.elim entries entries.take

/-- The readers of a store that keeps handles as `stored` are those of the fold of its first
entries: a row for each key they post to, zero for another, and no row of it in a report. The
report on a list of accounts that the store cannot ask for is an error. -/
structure ReadersAgree {ε : Type} (stored : AccountId → AccountId) (asks : List AccountId → Prop)
    (entries : List (Entry H .balanced P)) (trialBalance : Option Nat → Except ε (TrialBalance P)) (balance : BalanceKey → Option Nat → Except ε (Balance P))
    (balances : List AccountId → Currency → Layer → Option Nat → Except ε (OrdMap AccountId (Balance P))) : Prop where
  agree : ∀ size, ∃ tb, TrialBalance.new.applyAll (postingsOf (firstEntries entries size)) = .ok tb ∧
    trialBalance size = .ok tb ∧
    (∀ key, balance key size = .ok (tb.getOrZero { key with account := stored key.account })) ∧
    ∀ accounts currency layer,
      (asks accounts → ∃ out, balances accounts currency layer size = .ok out ∧ ∀ account, out.get? account =
        if account ∈ accounts.map stored then tb.get ⟨account, currency, layer⟩ else none) ∧
      (¬ asks accounts → ∃ e, balances accounts currency layer size = .error e)

/-! ## In memory -/

section
variable [Blake3 H] {j : Journal H P}

theorem get?_wanted {f : AccountId → Option (Balance P)} {accounts : List AccountId} {account : AccountId} :
    ∀ out : OrdMap AccountId (Balance P), (accounts.foldl (fun out a => (f a).elim out (out.insert a)) out).get? account =
      if account ∈ accounts ∧ (f account).isSome then f account else out.get? account := by
  induction accounts with
  | nil => exact fun out => by simp
  | cons a accounts ih =>
    intro out
    rw [List.foldl_cons, ih]
    by_cases hin : account ∈ accounts ∧ (f account).isSome
    · rw [if_pos hin, if_pos ⟨List.mem_cons_of_mem _ hin.1, hin.2⟩]
    · rw [if_neg hin]
      cases ha : f a with
      | none =>
        have hnone : ¬ (account ∈ a :: accounts ∧ (f account).isSome) := fun ⟨hm, hs⟩ => by
          rcases List.mem_cons.1 hm with rfl | hm
          · rw [ha] at hs
            cases hs
          · exact hin ⟨hm, hs⟩
        rw [if_neg hnone]
        rfl
      | some b =>
        show (out.insert a b).get? account = _
        rw [OrdMap.get?_insert]
        by_cases he : a = account
        · subst he
          rw [if_pos rfl, if_pos ⟨List.mem_cons_self, by rw [ha]; rfl⟩, ha]
        · have hnone : ¬ (account ∈ a :: accounts ∧ (f account).isSome) := fun ⟨hm, hs⟩ =>
            hin ⟨(List.mem_cons.1 hm).resolve_left fun h => he h.symm, hs⟩
          rw [if_neg he, if_neg hnone]

theorem MemoryStore.trialBalance_eq (h : j.Kept) {size : Option Nat} {tb : TrialBalance P}
    (htb : TrialBalance.new.applyAll (postingsOf (firstEntries j.entries size)) = .ok tb) : j.trialBalance size = .ok tb := by
  have hall : TrialBalance.new.applyAll (postingsOf j.entries) = .ok tb → (.ok j.balances : Except MoneyError (TrialBalance P)) = .ok tb :=
    fun htb => h.posted.folded.symm.trans htb
  cases size with
  | none => exact hall htb
  | some n =>
    show (if j.entries.length ≤ n then Except.ok j.balances
      else TrialBalance.new.applyAll (postingsOf (j.entries.take n))) = .ok tb
    by_cases hle : j.entries.length ≤ n
    · rw [if_pos hle]
      rw [firstEntries, Option.elim_some, List.take_of_length_le hle] at htb
      exact hall htb
    · rw [if_neg hle]
      exact htb

theorem MemoryStore.readers (h : j.Kept) :
    ReadersAgree id (fun _ => True) j.entries j.trialBalance j.balance (MemoryStore.balances j) where
  agree size := by
    have hsub : (firstEntries j.entries size).Sublist j.entries := by
      cases size with
      | none => exact .refl _
      | some n => exact List.take_sublist n _
    obtain ⟨tb, htb, hfold⟩ := h.part_ok hsub
    have hread := MemoryStore.trialBalance_eq h htb
    refine ⟨tb, htb, hread, fun key => ?_, fun accounts currency layer => ?_⟩
    · cases size with
      | none =>
        have he : j.balances = tb := Except.ok.inj (h.posted.folded.symm.trans htb)
        rw [← he]
        rfl
      | some n => exact (h.balance_eq key n).trans (hfold key)
    · refine ⟨fun _ => ⟨_, congrArg (Except.map _) hread, fun account => ?_⟩, fun hno => absurd trivial hno⟩
      rw [get?_wanted, List.map_id]
      by_cases hin : account ∈ accounts
      · rw [if_pos hin]
        cases hget : tb.get ⟨account, currency, layer⟩ with
        | none => simp
        | some b => simp [hin]
      · rw [if_neg hin, if_neg fun hx => hin hx.1]
        rfl

end

/-! ## On tables -/

namespace Tables

section
variable [Blake3 H] {t : Tables H P} {log : List (Logged H P)}

omit [Blake3 H] in
theorem take_zipIdx {α : Type} (l : List α) (n : Nat) : ∀ start,
    ((l.zipIdx start).filter fun x => x.2 < start + n).map Prod.fst = l.take n := by
  induction l generalizing n with
  | nil => exact fun start => by simp
  | cons a l ih =>
    intro start
    cases n with
    | zero =>
      rw [List.take_zero, List.map_eq_nil_iff, List.filter_eq_nil_iff]
      intro x hx
      have hle := (List.mem_zipIdx hx).1
      simp only [add_zero, decide_eq_true_eq]
      omega
    | succ n =>
      rw [List.zipIdx_cons, List.filter_cons_of_pos (by simp), List.map_cons, List.take_succ_cons]
      have hnext : start + (n + 1) = start + 1 + n := by omega
      rw [hnext, ih]

/-- The rows below a position are those of the first entries. -/
theorem sequencedBelow_perm (h : LogOf t.entries log) (bound : Nat) :
    ((t.sequencedBelow bound).flatMap (·.entry.postings)).Perm (postingsOf ((log.take bound).map (·.entry))) := by
  have hseq : ∀ rows : List (EntryRow H P), (rows.filter fun r => r.placed.any fun p => p.1 < bound).map (·.toLogged) =
      ((placedRows rows).filter fun x => x.1.1 < bound).map Prod.snd := by
    intro rows
    induction rows with
    | nil => rfl
    | cons r rows ih =>
      cases hp : r.placed with
      | none =>
        have hrow : placedRows (r :: rows) = placedRows rows := by rw [placedRows, List.filterMap_cons, hp]; rfl
        rw [List.filter_cons_of_neg (by simp [hp]), hrow, ih]
      | some p =>
        have hrow : placedRows (r :: rows) = (p, r.toLogged) :: placedRows rows := by
          rw [placedRows, List.filterMap_cons, hp]
          rfl
        rw [hrow]
        by_cases hlt : p.1 < bound
        · rw [List.filter_cons_of_pos (by simpa [hp] using hlt), List.filter_cons_of_pos (by simpa using hlt),
            List.map_cons, List.map_cons, ih]
        · rw [List.filter_cons_of_neg (by simpa [hp] using hlt), List.filter_cons_of_neg (by simpa using hlt), ih]
  have hlog : ((numbered log).filter fun x => x.1.1 < bound).map Prod.snd = log.take bound := by
    have htake := take_zipIdx log bound 0
    rw [zero_add] at htake
    rw [numbered, List.filter_map, List.map_map, ← htake]
    rfl
  have hperm : ((t.sequencedBelow bound).map (·.toLogged)).Perm (log.take bound) := by
    rw [sequencedBelow, hseq, ← hlog]
    exact (h.filter _).map _
  have hpostings := (hperm.map (·.entry)).flatMap_right (·.postings)
  rw [List.map_map, List.flatMap_map] at hpostings
  exact hpostings

/-- The rows of a statement up to a size are those of the first entries, while positions fit the column. -/
theorem sequencedBelow_first (h : LogOf t.entries log) (hroom : t.entries.length < 2 ^ 63) (size : Option Nat) :
    ((t.sequencedBelow (prefixBound size)).flatMap (·.entry.postings)).Perm
      (postingsOf (firstEntries (log.map (·.entry)) size)) := by
  have hle : log.length ≤ t.entries.length := by
    have hcount := sequencedCount_eq h
    have hrows : t.sequencedCount ≤ t.entries.length := List.length_filterMap_le _ _
    omega
  have hperm := sequencedBelow_perm h (prefixBound size)
  have htake : (log.take (prefixBound size)).map (·.entry) = firstEntries (log.map (·.entry)) size := by
    cases size with
    | none => exact congrArg _ (List.take_of_length_le (by show log.length ≤ 2 ^ 63 - 1; omega))
    | some n =>
      show (log.take (min n (2 ^ 63 - 1))).map (·.entry) = (log.map (·.entry)).take n
      rw [List.map_take, List.take_eq_take_iff, List.length_map]
      omega
  rw [htake] at hperm
  exact hperm

end

/-- Of the keys selected the totals are those of all rows, and the others have none. -/
theorem totals_filter {ps : List (Posting P)} {tb rows : TrialBalance P} {keep : Posting P → Bool} (htb : Totals ps tb)
    (hrows : Totals (ps.filter keep) rows) (key : BalanceKey) :
    ((∀ p ∈ ps, p.key = key → keep p = true) → rows.get key = tb.get key) ∧
    ((∀ p ∈ ps, p.key = key → keep p = false) → rows.get key = none) := by
  constructor
  · intro hall
    have hsome : (rows.get key).isSome = (tb.get key).isSome := by
      rw [Bool.eq_iff_iff, hrows.row, htb.row]
      exact ⟨fun ⟨p, hp, hk⟩ => ⟨p, (List.mem_filter.1 hp).1, hk⟩,
        fun ⟨p, hp, hk⟩ => ⟨p, List.mem_filter.2 ⟨hp, hall p hp hk⟩, hk⟩⟩
    have hgross : ∀ d, gross d key (ps.filter keep) = gross d key ps := fun d => by
      unfold gross
      rw [List.filter_filter]
      refine congrArg (fun l : List (Posting P) => (l.map (·.amount.minor)).sum) (List.filter_congr fun p hp => ?_)
      rw [Bool.eq_iff_iff, Bool.and_eq_true, decide_eq_true_eq]
      exact ⟨fun hx => hx.1, fun hx => ⟨hx, hall p hp hx.1⟩⟩
    have hzero : rows.getOrZero key = tb.getOrZero key := Balance.ext_side fun d => by rw [hrows.side, htb.side, hgross]
    unfold TrialBalance.getOrZero at hzero
    cases hr : rows.get key with
    | none =>
      rw [hr] at hsome
      exact (Option.isNone_iff_eq_none.1 (by simpa using hsome.symm)).symm
    | some b =>
      rw [hr] at hsome hzero
      obtain ⟨b', hb⟩ := Option.isSome_iff_exists.1 hsome.symm
      rw [hb] at hzero ⊢
      exact congrArg some hzero
  · intro hnone
    rw [Option.eq_none_iff_forall_ne_some]
    intro b hb
    obtain ⟨p, hp, hk⟩ := (hrows.row key).1 (by rw [hb]; rfl)
    obtain ⟨hp, hkeep⟩ := List.mem_filter.1 hp
    rw [hnone p hp hk] at hkeep
    cases hkeep

/-- The loop over the rows of one currency and layer. -/
theorem get?_rows {rows : TrialBalance P} {currency : Currency} {layer : Layer}
    (hrows : ∀ key b, rows.get key = some b → key.currency = currency ∧ key.layer = layer) (account : AccountId) :
    (rows.entries.entries.foldl (fun out row => out.insert row.1.account row.2) OrdMap.empty).get? account =
      rows.get ⟨account, currency, layer⟩ := by
  have hkey : ∀ row ∈ rows.entries.entries, row.1 = ⟨row.1.account, currency, layer⟩ := by
    rintro ⟨key, b⟩ hrow
    obtain ⟨rfl, rfl⟩ := hrows key b (OrdMap.mem_entries.1 hrow)
    rfl
  refine Option.ext fun b => ?_
  rw [OrdMap.get?_foldl_insert fun x hx y hy hf => ?_]
  · simp only [OrdMap.get?_empty, reduceCtorEq, and_false, or_false]
    constructor
    · rintro ⟨⟨key, b'⟩, hrow, rfl, rfl⟩
      have hk : key = ⟨key.account, currency, layer⟩ := hkey _ hrow
      rw [← hk]
      exact OrdMap.mem_entries.1 hrow
    · exact fun hget => ⟨(_, b), OrdMap.mem_entries.2 hget, rfl, rfl⟩
  · have he : x.1 = y.1 := by rw [hkey x hx, hkey y hy, hf]
    have hxget : rows.entries.get? x.1 = some x.2 := OrdMap.mem_entries.1 hx
    have hyget : rows.entries.get? y.1 = some y.2 := OrdMap.mem_entries.1 hy
    rw [he, hyget] at hxget
    exact (Option.some.inj hxget).symm

section
variable [Blake3 H] {B : Backend} {t : Tables H P} {log : List (Logged H P)}

theorem LogInv.readers (h : t.LogInv log) (hroom : t.entries.length < 2 ^ 63) (hfits : Summable t.filed) :
    ReadersAgree B.handle B.Asks (log.map (·.entry)) t.trialBalance (t.balance B) (t.balances B) where
  agree size := by
    have hsum : Summable ((t.sequencedBelow (prefixBound size)).flatMap (·.entry.postings)) :=
      hfits.sublist (List.filter_sublist.flatMap _)
    have hperm := sequencedBelow_first h.logOf hroom size
    obtain ⟨tb, htb⟩ := hsum.sumByKey
    have htotals := sumByKey_eq_ok.1 htb
    refine ⟨tb, ?_, htb, fun key => sumRow_eq_ok.2 fun d => htotals.side _ d, fun accounts currency layer => ?_⟩
    · exact applyAll_of_totals (fun p hp => (hsum.positive p (hperm.mem_iff.2 hp)).le) (htotals.perm hperm)
    · refine ⟨fun hasks => ?_, fun hno => ⟨.database, if_pos hno⟩⟩
      obtain ⟨rows, hrows⟩ := (hsum.sublist (List.filter_sublist (p := fun p =>
        (accounts.map B.handle).contains p.account ∧ p.currency = currency ∧ p.layer = layer))).sumByKey
      have hselected := sumByKey_eq_ok.1 hrows
      refine ⟨_, (if_neg (not_not.2 hasks)).trans (congrArg (Except.map _) hrows), fun account => ?_⟩
      have hkeys : ∀ key b, rows.get key = some b → key.currency = currency ∧ key.layer = layer := fun key b hb => by
        obtain ⟨p, hp, rfl⟩ := (hselected.row key).1 (by rw [hb]; rfl)
        exact (of_decide_eq_true (List.mem_filter.1 hp).2).2
      obtain ⟨hall, hnone⟩ := totals_filter htotals hselected ⟨account, currency, layer⟩
      rw [get?_rows hkeys]
      by_cases hin : account ∈ accounts.map B.handle
      · rw [if_pos hin]
        refine hall fun p hp hk => ?_
        obtain ⟨rfl, rfl, rfl⟩ := BalanceKey.mk.inj hk
        exact decide_eq_true ⟨List.contains_iff_mem.2 hin, rfl, rfl⟩
      · rw [if_neg hin]
        refine hnone fun p hp hk => decide_eq_false fun hx => hin ?_
        obtain rfl : p.account = account := congrArg BalanceKey.account hk
        exact List.contains_iff_mem.1 hx.1

variable [DecidableEq H] {ledger : LedgerId}

/-- While the totals of all rows fit, they go on to. -/
theorem summable_of_fits (h : ((calls B ledger).restrict (Fits B)).Reachable t) : Summable t.filed := by
  refine (LTS.Inductive.reachable (T := (calls B ledger).restrict (Fits B))
    (I := fun t => (∃ log, t.LogInv log) ∧ Summable t.filed) ⟨?_, ?_⟩ h).2
  · rintro _ rfl
    exact ⟨⟨_, logInv_empty ledger⟩, fun p hp => (List.not_mem_nil hp).elim, fun d key => show (0 : Int) ≤ i64Max by decide⟩
  · rintro t k t' ⟨hlog, hfits⟩ st
    obtain ⟨st, hk⟩ := LTS.restrict_step.1 st
    refine ⟨(logInv_inductive B ledger).step t k t' hlog st, ?_⟩
    obtain ⟨log, hlog⟩ := hlog
    obtain ⟨-, rfl, -⟩ := st
    exact (t.after_effect B k).summable hlog hfits hk

end

end Tables

/-! ## The result -/

variable [Blake3 H] [DecidableEq H]

/-- **The three readers agree**, on every store and at every size of the log. -/
theorem readers_agree (ledger : LedgerId) :
    (∀ (B : Backend) (t : Tables H P), ((Tables.calls B ledger).restrict (Tables.Fits B)).Reachable t →
      ReadersAgree B.handle B.Asks (t.log.map (·.entry)) t.trialBalance (t.balance B) (t.balances B)) ∧
    ∀ j : Journal H P, (Journal.sealedOperations ledger).Reachable j →
      ReadersAgree id (fun _ => True) j.entries j.trialBalance j.balance (MemoryStore.balances j) := by
  refine ⟨fun B t h => ?_, fun j hj => MemoryStore.readers (Journal.kept_of_reachable hj)⟩
  have hcalls := LTS.Reachable.of_restrict h
  obtain ⟨log, hlog⟩ := (Tables.logInv_inductive B ledger).reachable hcalls
  rw [Tables.log_eq hlog.logOf]
  exact hlog.readers (Tables.room_of_reachable hcalls) (Tables.summable_of_fits h)

/-! ## A sale, sequenced later -/

/-- Two accounts, and the sale before it has a position. -/
def unsequencedSale : Tables Preimage cents :=
  (((Tables.empty books).after .postgres (.registerAccount ⟨cashId, cash⟩)).after .postgres
    (.registerAccount ⟨salesId, sales⟩)).after .postgres (.appendDeferred 0 [saleOfMarch.withState .balanced])

def sequencedSale : Tables Preimage cents := unsequencedSale.after .postgres (.sequence 1)

theorem reachable_sequencedSale :
    ((Tables.calls .postgres books).restrict (Tables.Fits .postgres)).Reachable sequencedSale := by
  have hoffers : Tables.Offers .postgres (.appendDeferred 0 [saleOfMarch.withState .balanced] : Tables.Call Preimage cents) :=
    ⟨rfl, fun e he => by rw [List.mem_singleton.1 he]; decide⟩
  have hfits : Tables.Fits .postgres (((Tables.empty books).after .postgres (.registerAccount ⟨cashId, cash⟩)).after .postgres
      (.registerAccount ⟨salesId, sales⟩) : Tables Preimage cents) (.appendDeferred 0 [saleOfMarch.withState .balanced]) := by
    refine ⟨fun e he => ?_, fun d key => ?_⟩
    · rw [List.mem_singleton.1 he]
      exact Tables.fromSeal_march _ List.mem_cons_self
    · have hall : gross d key [.debit cashId tenEuro .eur, .credit salesId tenEuro .eur] ≤ 2000 :=
        (List.filter_sublist.map _).sum_le_sum fun n hn => by
          rcases List.mem_pair.1 hn with rfl | rfl <;> decide
      exact hall.trans (by decide)
  have hrun : ((Tables.calls .postgres books).restrict (Tables.Fits .postgres)).Run (Tables.empty books)
      [.registerAccount ⟨cashId, cash⟩, .registerAccount ⟨salesId, sales⟩,
        .appendDeferred 0 [saleOfMarch.withState .balanced], .sequence 1] sequencedSale :=
    .cons ⟨Tables.step_after trivial (by decide), trivial⟩ <| .cons ⟨Tables.step_after trivial (by decide), trivial⟩ <|
      .cons ⟨Tables.step_after hoffers (by decide), hfits⟩ <| .cons ⟨Tables.step_after rfl (by decide), trivial⟩ (.nil _)
  exact ⟨_, _, rfl, hrun⟩

set_option maxRecDepth 10000 in
/-- Not vacuous: the sale is reported by both stores, ten euro on the debit side of cash. -/
theorem sale_reported : ∃ out, sequencedSale.balances .postgres [cashId, salesId] .eur .settled none = .ok out ∧
    MemoryStore.balances Journal.marchSold [cashId, salesId] .eur .settled none = .ok out ∧
    out.get? cashId = some ⟨tenEuro, ⟨0, by decide⟩⟩ := by
  obtain ⟨htables, hmemory⟩ := readers_agree (H := Preimage) (P := cents) books
  obtain ⟨tb, htb, -, -, hreports⟩ := (htables .postgres sequencedSale reachable_sequencedSale).agree none
  obtain ⟨tb', htb', -, -, hreports'⟩ := (hmemory Journal.marchSold Journal.reachable_marchSold).agree none
  have hlog : sequencedSale.log.map (·.entry) = [saleOfMarch.withState .balanced] := by decide
  have hentries : Journal.marchSold.entries = [saleOfMarch.withState .balanced] := by decide
  rw [hlog] at htb
  rw [hentries, htb] at htb'
  obtain rfl : tb = tb' := Except.ok.inj htb'
  obtain ⟨out, hout, hget⟩ := (hreports [cashId, salesId] .eur .settled).1 trivial
  obtain ⟨out', hout', hget'⟩ := (hreports' [cashId, salesId] .eur .settled).1 trivial
  obtain rfl : out = out' := OrdMap.ext_get? fun account => by rw [hget, hget']; rfl
  have hrow : (TrialBalance.new.applyAll (postingsOf [saleOfMarch.withState .balanced])).toOption.bind
      (·.get ⟨cashId, .eur, .settled⟩) = some ⟨tenEuro, ⟨0, by decide⟩⟩ := by decide
  have htb : TrialBalance.new.applyAll (postingsOf [saleOfMarch.withState .balanced]) = .ok tb := htb
  rw [htb] at hrow
  exact ⟨out, hout, hout', by rw [hget, if_pos (by decide)]; exact hrow⟩

end DoubleEntry.L4
