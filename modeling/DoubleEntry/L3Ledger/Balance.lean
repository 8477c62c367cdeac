import DoubleEntry.Core.Except
import DoubleEntry.L1Values.Label
import DoubleEntry.L1Values.Money

/-!
# Postings, balances and trial balances

A posting moves a magnitude on one side of an account. A trial balance keeps the
gross debits and credits per account, currency and layer, and is what folding
postings gives (`TrialBalance.applyAll`).

`Totals ps tb` says what the fold means without the order of the folding: `tb`
has a row for exactly the keys the postings touch, and its totals are their
sums. A fold that returns satisfies it (`totals_of_applyAll`), it determines the
trial balance (`Totals.unique`), and for magnitudes that are not negative it is
enough for the fold to return (`applyAll_of_totals`): no partial sum leaves the
range if the whole one does not.

**Results.**
* `totals_of_applyAll`, `applyAll_of_totals`: a fold is its totals, both ways.
* `applyAll_ok`: magnitudes whose whole totals fit can be folded in any order.
* `gross_le`: leaving postings out lowers a total, and so keeps it in range.
-/
namespace DoubleEntry.L3

open DoubleEntry.Core DoubleEntry.L1

/-- `AccountId(u32)`. mirrors src/account.rs:390-408 -/
structure AccountId where
  index : Nat
  fits : index < 2 ^ 32

instance : LinearOrder AccountId :=
  LinearOrder.lift' AccountId.index fun ⟨_, _⟩ ⟨_, _⟩ h => by cases h; rfl

theorem AccountId.ext {a b : AccountId} (h : a.index = b.index) : a = b := by
  cases a; cases b; cases h; rfl

/-! ## Postings -/

/-- mirrors src/posting.rs:16-21 -/
inductive Direction
  | debit
  | credit
  deriving DecidableEq, Repr

/-- mirrors src/posting.rs:26-31 -/
def Direction.inverse : Direction → Direction
  | .debit => .credit
  | .credit => .debit

/-- mirrors src/posting.rs:45-50 -/
def Direction.discriminant : Direction → Nat
  | .debit => 0
  | .credit => 1

/-- mirrors src/posting.rs:69-75 -/
inductive Layer
  | settled
  | pending
  deriving Repr

/-- mirrors src/posting.rs:78-83 -/
def Layer.discriminant : Layer → Nat
  | .settled => 0
  | .pending => 1

instance : LinearOrder Layer :=
  LinearOrder.lift' Layer.discriminant fun a b h => by cases a <;> cases b <;> first | rfl | cases h

/-- mirrors src/balance.rs:77-84 -/
structure BalanceKey where
  account : AccountId
  currency : Currency
  layer : Layer

def BalanceKey.toLexKey (k : BalanceKey) : AccountId ×ₗ Currency ×ₗ Layer :=
  toLex (k.account, toLex (k.currency, k.layer))

instance : LinearOrder BalanceKey :=
  LinearOrder.lift' BalanceKey.toLexKey fun ⟨a, b, c⟩ ⟨a', b', c'⟩ h => by
    simp only [BalanceKey.toLexKey, EmbeddingLike.apply_eq_iff_eq, Prod.mk.injEq] at h
    obtain ⟨rfl, rfl, rfl⟩ := h
    rfl

/-- mirrors src/posting.rs:101-115 -/
structure Posting (P : Scale) where
  account : AccountId
  direction : Direction
  amount : Amount P
  currency : Currency
  layer : Layer
  dimensions : Dimensions
  deriving DecidableEq

variable {P : Scale}

namespace Posting

/-- mirrors src/posting.rs:119-134 -/
def new (account : AccountId) (direction : Direction) (amount : Amount P) (currency : Currency) : Posting P :=
  ⟨account, direction, amount, currency, .settled, .none⟩

/-- mirrors src/posting.rs:137-140 -/
def debit (account : AccountId) (amount : Amount P) (currency : Currency) : Posting P :=
  new account .debit amount currency

/-- mirrors src/posting.rs:143-146 -/
def credit (account : AccountId) (amount : Amount P) (currency : Currency) : Posting P :=
  new account .credit amount currency

/-- `key_of`. mirrors src/journal.rs:1315-1321 -/
def key (p : Posting P) : BalanceKey := ⟨p.account, p.currency, p.layer⟩

/-- mirrors src/posting.rs:189-198 -/
instance : Canonical (Posting P) :=
  ⟨fun p => writeU32 p.account.index ++ writeU8 p.direction.discriminant ++ writeI64 p.amount.minor ++
    p.currency.asBytes ++ writeU8 p.layer.discriminant ++ Canonical.encode p.dimensions⟩

end Posting

/-! ## Balances -/

/-- mirrors src/balance.rs:17-22 -/
@[ext] structure Balance (P : Scale) where
  debits : Amount P
  credits : Amount P
  deriving DecidableEq

namespace Balance

def zero : Balance P := ⟨.zero, .zero⟩

/-- mirrors src/balance.rs:32-38 -/
def add (b : Balance P) : Direction → Amount P → Except MoneyError (Balance P)
  | .debit, amount => (b.debits.checkedAdd amount).map fun d => { b with debits := d }
  | .credit, amount => (b.credits.checkedAdd amount).map fun c => { b with credits := c }

/-- mirrors src/balance.rs:53-55 -/
def signedNet (b : Balance P) : Except MoneyError (Amount P) := b.debits.checkedSub b.credits

/-- mirrors src/balance.rs:59-61 -/
def isBalanced (b : Balance P) : Bool := b.debits = b.credits

/-- mirrors src/balance.rs:70-75 -/
def checkedAdd (b c : Balance P) : Except MoneyError (Balance P) := do
  .ok ⟨← b.debits.checkedAdd c.debits, ← b.credits.checkedAdd c.credits⟩

/-- The total on one side. -/
def side (b : Balance P) : Direction → Int
  | .debit => b.debits.minor
  | .credit => b.credits.minor

theorem ext_side {b c : Balance P} (h : ∀ d, b.side d = c.side d) : b = c :=
  Balance.ext (Amount.ext (h .debit)) (Amount.ext (h .credit))

@[simp] theorem side_zero (d : Direction) : (zero : Balance P).side d = 0 := by cases d <;> rfl

theorem side_le (b : Balance P) (d : Direction) : b.side d ≤ i64Max := by
  cases d
  · exact b.debits.fits.2
  · exact b.credits.fits.2

/-- An addition moves one side by the amount. -/
theorem side_add {b c : Balance P} {d : Direction} {amount : Amount P} (h : b.add d amount = .ok c)
    (d' : Direction) : c.side d' = b.side d' + if d = d' then amount.minor else 0 := by
  cases d <;> obtain ⟨x, hx, rfl⟩ := map_eq_ok.1 h <;> have hx := Amount.checkedAdd_eq_ok.1 hx <;>
    cases d' <;> simp [side, hx]

theorem add_ok {b : Balance P} {d : Direction} {amount : Amount P} (h : FitsI64 (b.side d + amount.minor)) :
    ∃ c, b.add d amount = .ok c := by
  cases d <;> exact ⟨_, map_eq_ok.2 ⟨⟨_, h⟩, Amount.checkedAdd_eq_ok.2 rfl, rfl⟩⟩

end Balance

/-! ## Trial balances -/

/-- mirrors src/balance.rs:95-97 -/
structure TrialBalance (P : Scale) where
  entries : OrdMap BalanceKey (Balance P)
  deriving DecidableEq

namespace TrialBalance

/-- mirrors src/balance.rs:98-102 -/
def new : TrialBalance P := ⟨.empty⟩

/-- mirrors src/balance.rs:140-142 -/
def get (tb : TrialBalance P) (key : BalanceKey) : Option (Balance P) := tb.entries.get? key

/-- mirrors src/balance.rs:146-148 -/
def getOrZero (tb : TrialBalance P) (key : BalanceKey) : Balance P := (tb.get key).getD .zero

/-- Adds to the row of the posting's key, starting at zero. On overflow the
source leaves the row it created behind; every caller drops the map then.
mirrors src/balance.rs:105-115 -/
def apply (tb : TrialBalance P) (posting : Posting P) : Except MoneyError (TrialBalance P) :=
  match (tb.getOrZero posting.key).add posting.direction posting.amount with
  | .error e => .error e
  | .ok b => .ok ⟨tb.entries.insert posting.key b⟩

/-- Applies postings in order, up to the first overflow. -/
def applyAll (tb : TrialBalance P) (postings : List (Posting P)) : Except MoneyError (TrialBalance P) :=
  postings.foldlM apply tb

/-- Number of rows. mirrors src/balance.rs:157-159 -/
def len (tb : TrialBalance P) : Nat := tb.entries.size

/-- Over all accounts, for one currency and layer. mirrors src/balance.rs:172-180 -/
def totals (tb : TrialBalance P) (currency : Currency) (layer : Layer) : Except MoneyError (Balance P) :=
  tb.entries.entries.foldlM (fun acc e =>
    if e.1.currency = currency ∧ e.1.layer = layer then acc.checkedAdd e.2 else .ok acc) Balance.zero

/-- Sorted, without repeats. mirrors src/balance.rs:184-189 -/
def currencies (tb : TrialBalance P) : List Currency :=
  ((tb.entries.keys.map (·.currency)).insertionSort (· ≤ ·)).dedup

theorem ext_get {tb tb' : TrialBalance P} (h : ∀ key, tb.get key = tb'.get key) : tb = tb' := by
  cases tb; cases tb'
  exact congrArg _ (OrdMap.ext_get? h)

theorem apply_eq_ok {tb tb' : TrialBalance P} {p : Posting P} : tb.apply p = .ok tb' ↔
    ∃ b, (tb.getOrZero p.key).add p.direction p.amount = .ok b ∧ tb' = ⟨tb.entries.insert p.key b⟩ := by
  unfold apply
  cases (tb.getOrZero p.key).add p.direction p.amount with
  | error e => simp
  | ok b => simp [eq_comm]

theorem applyAll_append {tb : TrialBalance P} {ps qs : List (Posting P)} :
    tb.applyAll (ps ++ qs) = (tb.applyAll ps).bind fun tb' => tb'.applyAll qs := List.foldlM_append

theorem applyAll_concat_eq_ok {tb tb' : TrialBalance P} {ps : List (Posting P)} {p : Posting P} :
    tb.applyAll (ps ++ [p]) = .ok tb' ↔ ∃ tb₁, tb.applyAll ps = .ok tb₁ ∧ tb₁.apply p = .ok tb' := by
  rw [applyAll_append]
  cases tb.applyAll ps with
  | error e => simp [Except.bind]
  | ok tb₁ => cases h : tb₁.apply p <;> simp [Except.bind, applyAll, pure, Except.pure, bind, h]

end TrialBalance

/-! ## What a fold of postings holds -/

/-- The postings touch the key. -/
def Touches (ps : List (Posting P)) (key : BalanceKey) : Prop := ∃ p ∈ ps, p.key = key

/-- Postings added to one balance, in order. -/
def Balance.addAll (b : Balance P) (ps : List (Posting P)) : Except MoneyError (Balance P) :=
  ps.foldlM (fun b p => b.add p.direction p.amount) b

theorem Balance.addAll_append {b : Balance P} {ps qs : List (Posting P)} :
    b.addAll (ps ++ qs) = b.addAll ps >>= fun c => c.addAll qs := List.foldlM_append

/-- One posting: the row of its key moves, the others stay. -/
theorem TrialBalance.get_of_apply {tb tb' : TrialBalance P} {p : Posting P} (h : tb.apply p = .ok tb')
    (key : BalanceKey) : (p.key = key → ∃ b, (tb.getOrZero key).add p.direction p.amount = .ok b ∧ tb'.get key = some b) ∧
      (p.key ≠ key → tb'.get key = tb.get key) := by
  obtain ⟨b, hb, rfl⟩ := TrialBalance.apply_eq_ok.1 h
  refine ⟨fun hk => ?_, fun hk => OrdMap.get?_insert_ne hk⟩
  subst hk
  exact ⟨b, hb, OrdMap.get?_insert_self⟩

/-- Key by key, a fold of postings is the fold of those of the key. -/
theorem TrialBalance.get_of_applyAll {tb tb' : TrialBalance P} {ps : List (Posting P)} (h : tb.applyAll ps = .ok tb')
    (key : BalanceKey) : (tb.getOrZero key).addAll (ps.filter (·.key = key)) = .ok (tb'.getOrZero key) ∧
      (Touches ps key → (tb'.get key).isSome) ∧ (¬ Touches ps key → tb'.get key = tb.get key) := by
  induction ps generalizing tb with
  | nil =>
    cases h
    exact ⟨rfl, fun ⟨_, hp, _⟩ => absurd hp List.not_mem_nil, fun _ => rfl⟩
  | cons p ps ih =>
    obtain ⟨tb₁, h₁, h₂⟩ := bind_eq_ok.1 (show tb.apply p >>= (fun t => t.applyAll ps) = .ok tb' from h)
    obtain ⟨hfold, htouch, hkeep⟩ := ih h₂
    obtain ⟨hrow, hother⟩ := TrialBalance.get_of_apply h₁ key
    by_cases hk : p.key = key
    · obtain ⟨b, hb, hget⟩ := hrow hk
      have hb₁ : tb₁.getOrZero key = b := by rw [TrialBalance.getOrZero, hget, Option.getD_some]
      refine ⟨?_, fun _ => ?_, fun hn => absurd ⟨p, List.mem_cons_self, hk⟩ hn⟩
      · rw [List.filter_cons_of_pos (by simpa using hk)]
        rw [hb₁] at hfold
        exact bind_eq_ok.2 ⟨b, hb, hfold⟩
      · by_cases ht : Touches ps key
        · exact htouch ht
        · rw [hkeep ht, hget, Option.isSome_some]
    · have hb₁ : tb₁.getOrZero key = tb.getOrZero key := by rw [TrialBalance.getOrZero, hother hk]; rfl
      rw [List.filter_cons_of_neg (by simpa using hk), ← hb₁]
      refine ⟨hfold, fun ⟨q, hq, e⟩ => htouch ⟨q, ?_, e⟩, fun hn => ?_⟩
      · exact (List.mem_cons.1 hq).resolve_left fun he => hk (he ▸ e)
      · rw [hkeep fun ⟨q, hq, e⟩ => hn ⟨q, List.mem_cons_of_mem _ hq, e⟩, hother hk]

/-- Gross total of the postings on one side of a key. -/
def gross (d : Direction) (key : BalanceKey) (ps : List (Posting P)) : Int :=
  ((ps.filter fun p => p.key = key ∧ p.direction = d).map (·.amount.minor)).sum

@[simp] theorem gross_nil (d : Direction) (key : BalanceKey) : gross d key ([] : List (Posting P)) = 0 := rfl

theorem gross_append (d : Direction) (key : BalanceKey) (ps qs : List (Posting P)) :
    gross d key (ps ++ qs) = gross d key ps + gross d key qs := by
  unfold gross
  rw [List.filter_append, List.map_append, List.sum_append]

theorem gross_concat (d : Direction) (key : BalanceKey) (ps : List (Posting P)) (p : Posting P) :
    gross d key (ps ++ [p]) = gross d key ps + if p.key = key ∧ p.direction = d then p.amount.minor else 0 := by
  unfold gross
  rw [List.filter_append, List.map_append, List.sum_append]
  by_cases h : p.key = key ∧ p.direction = d <;> simp [h]

theorem gross_nonneg {d : Direction} {key : BalanceKey} {ps : List (Posting P)}
    (h : ∀ p ∈ ps, 0 ≤ p.amount.minor) : 0 ≤ gross d key ps := by
  refine List.sum_nonneg fun n hn => ?_
  obtain ⟨p, hp, rfl⟩ := List.mem_map.1 hn
  exact h p (List.mem_filter.1 hp).1

theorem gross_le {d : Direction} {key : BalanceKey} {ps qs : List (Posting P)} (h : ps.Sublist qs)
    (hn : ∀ p ∈ qs, 0 ≤ p.amount.minor) : gross d key ps ≤ gross d key qs := by
  refine ((h.filter _).map _).sum_le_sum fun n hm => ?_
  obtain ⟨p, hp, rfl⟩ := List.mem_map.1 hm
  exact hn p (List.mem_filter.1 hp).1

theorem gross_perm {d : Direction} {key : BalanceKey} {ps qs : List (Posting P)} (h : ps.Perm qs) :
    gross d key ps = gross d key qs := ((h.filter _).map _).sum_eq

/-- A row for exactly the keys touched, holding the gross totals. -/
structure Totals (ps : List (Posting P)) (tb : TrialBalance P) : Prop where
  row : ∀ key, (tb.get key).isSome ↔ Touches ps key
  side : ∀ key d, (tb.getOrZero key).side d = gross d key ps

theorem totals_new : Totals ([] : List (Posting P)) .new :=
  ⟨fun key => by simp [TrialBalance.get, TrialBalance.new, Touches], fun key d => Balance.side_zero d⟩

theorem Totals.perm {ps qs : List (Posting P)} {tb : TrialBalance P} (h : Totals ps tb) (hp : ps.Perm qs) :
    Totals qs tb where
  row key := (h.row key).trans ⟨fun ⟨p, hm, hk⟩ => ⟨p, hp.mem_iff.1 hm, hk⟩, fun ⟨p, hm, hk⟩ => ⟨p, hp.mem_iff.2 hm, hk⟩⟩
  side key d := (h.side key d).trans (gross_perm hp)

theorem Totals.apply {ps : List (Posting P)} {tb tb' : TrialBalance P} {p : Posting P} (h : Totals ps tb)
    (ha : tb.apply p = .ok tb') : Totals (ps ++ [p]) tb' := by
  obtain ⟨b, hb, rfl⟩ := TrialBalance.apply_eq_ok.1 ha
  have hget : ∀ key, TrialBalance.get ⟨tb.entries.insert p.key b⟩ key = if p.key = key then some b else tb.get key :=
    fun key => OrdMap.get?_insert
  refine ⟨fun key => ?_, fun key d => ?_⟩
  · rw [hget]
    by_cases hk : p.key = key
    · simp [hk, Touches]
    · have := h.row key
      simp only [if_neg hk, this, Touches, List.mem_append, List.mem_singleton]
      exact ⟨fun ⟨q, hq, e⟩ => ⟨q, .inl hq, e⟩, fun ⟨q, hq, e⟩ => ⟨q, hq.resolve_right fun he => hk (he ▸ e), e⟩⟩
  · rw [gross_concat, ← h.side key d, TrialBalance.getOrZero, hget]
    by_cases hk : p.key = key
    · subst hk
      have := Balance.side_add hb d
      simpa using this
    · simp [hk, TrialBalance.getOrZero]

theorem totals_of_applyAll {ps : List (Posting P)} {tb : TrialBalance P}
    (h : TrialBalance.new.applyAll ps = .ok tb) : Totals ps tb := by
  induction ps using List.reverseRecOn generalizing tb with
  | nil => cases h; exact totals_new
  | append_singleton ps p ih =>
    obtain ⟨tb₁, h₁, ha⟩ := TrialBalance.applyAll_concat_eq_ok.1 h
    exact (ih h₁).apply ha

theorem Totals.unique {ps : List (Posting P)} {tb tb' : TrialBalance P} (h : Totals ps tb)
    (h' : Totals ps tb') : tb = tb' := by
  refine TrialBalance.ext_get fun key => ?_
  have hs : (tb.get key).isSome = (tb'.get key).isSome := by
    rw [Bool.eq_iff_iff, h.row, h'.row]
  have hv : tb.getOrZero key = tb'.getOrZero key :=
    Balance.ext_side fun d => by rw [h.side, h'.side]
  unfold TrialBalance.getOrZero at hv
  cases hg : tb.get key <;> cases hg' : tb'.get key <;> simp_all

/-- Folding magnitudes returns when the whole totals are in range. -/
theorem applyAll_ok {ps : List (Posting P)} (hn : ∀ p ∈ ps, 0 ≤ p.amount.minor)
    (hle : ∀ key d, gross d key ps ≤ i64Max) : ∃ tb, TrialBalance.new.applyAll ps = .ok tb := by
  induction ps using List.reverseRecOn with
  | nil => exact ⟨_, rfl⟩
  | append_singleton ps p ih =>
    have hn' : ∀ q ∈ ps, 0 ≤ q.amount.minor := fun q hq => hn q (List.mem_append_left _ hq)
    have hp : 0 ≤ p.amount.minor := hn p (by simp)
    have hle' : ∀ key d, gross d key ps ≤ i64Max := fun key d => by
      have := hle key d
      rw [gross_concat] at this
      split at this <;> omega
    obtain ⟨tb, h⟩ := ih hn' hle'
    have ht := (totals_of_applyAll h).side p.key p.direction
    have hg : 0 ≤ gross p.direction p.key ps := gross_nonneg hn'
    have hsum := hle p.key p.direction
    rw [gross_concat, if_pos ⟨rfl, rfl⟩, ← ht] at hsum
    have hmin : i64Min ≤ 0 := by decide
    have hfits : FitsI64 ((tb.getOrZero p.key).side p.direction + p.amount.minor) := ⟨by omega, hsum⟩
    obtain ⟨b, hb⟩ := Balance.add_ok hfits
    exact ⟨_, TrialBalance.applyAll_concat_eq_ok.2 ⟨tb, h, TrialBalance.apply_eq_ok.2 ⟨b, hb, rfl⟩⟩⟩

/-- The totals of magnitudes are what the fold returns. -/
theorem applyAll_of_totals {ps : List (Posting P)} {tb : TrialBalance P} (hn : ∀ p ∈ ps, 0 ≤ p.amount.minor)
    (h : Totals ps tb) : TrialBalance.new.applyAll ps = .ok tb := by
  obtain ⟨tb', h'⟩ := applyAll_ok hn fun key d => by
    rw [← h.side key d]
    exact Balance.side_le _ d
  rw [h', (totals_of_applyAll h').unique h]

end DoubleEntry.L3
