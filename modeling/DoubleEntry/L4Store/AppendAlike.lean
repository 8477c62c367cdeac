import DoubleEntry.L3Ledger.Limits
import DoubleEntry.L4Store.Handles
import DoubleEntry.L4Store.Paging
import DoubleEntry.L4Store.Retries

/-!
# One append on both stores

The journal looks the key up first, then checks the reversal, adds the postings to its
balances and looks at the limits. The SQL stores look for a clash of identifiers, check the
reversal, look the key up, insert the row, which the schema may refuse, and sum the rows of
every limited account.

`Holds` says that the rows are the entries of the journal. Then both orders of checks take
the same entries, and give the same receipts (`Holds.appendOne`), where the entry is one
that the caller can have: sealed, on accounts that are there, under the identifier on file
when it is sent again, and not too large for the totals. So do batches (`Holds.appendEach`).

**Assumptions.** The rows are the entries of the journal (`Holds`), dates are ones the backend
stores, the batch is one the caller can have and leaves the totals in range (`Recordable`).

**Results.**
* `accept_iff`, `Holds.landed_iff`: the checks of either store are one proposition.
* `Holds.landed_retry`: a retry passes the checks that come before its key.
-/
namespace DoubleEntry.L4

open DoubleEntry.Core DoubleEntry.L1 DoubleEntry.L2 DoubleEntry.L3

variable {H : Type} [Blake3 H] {P : Scale}

/-! ## Rows and entries -/

namespace Tables

/-- The rows are the entries of the journal, each with a position, and the accounts are its accounts. -/
structure Holds (B : Backend) (t : Tables H P) (j : Journal H P) : Prop where
  kept : j.Kept
  corrects : Journal.Corrects j.entries
  rows : RowsOf t.entries (MemoryStore.leaves j)
  leaves : t.leaves = MemoryStore.leaves j
  placed : ∀ r ∈ t.entries, r.placed.isSome
  accounts : ∀ id, t.accounts.get? id = j.accounts.get id
  narrow : ∀ id, (j.accounts.get id).isSome → B.handle id = id

variable {B : Backend} {t : Tables H P} {j : Journal H P}

namespace Holds

theorem entries (h : Holds B t j) : t.entries.map (·.entry) = j.entries := by
  have hmap := congrArg (List.map Logged.entry) h.leaves
  rw [Tables.leaves, MemoryStore.leaves, List.map_map, List.map_map] at hmap
  exact hmap.trans (List.map_id _)

theorem mem_iff (h : Holds B t j) {x : Entry H .balanced P} : x ∈ j.entries ↔ ∃ r ∈ t.entries, r.entry = x := by
  rw [← h.entries, List.mem_map]

theorem contentHash (h : Holds B t j) {r : EntryRow H P} (hr : r ∈ t.entries) : r.contentHash = r.entry.contentHash := by
  have hleaf : r.toLogged ∈ MemoryStore.leaves j := h.leaves ▸ List.mem_map_of_mem hr
  obtain ⟨e, -, he⟩ := List.mem_map.1 hleaf
  rw [← he]

theorem position (h : Holds B t j) {r : EntryRow H P} (hr : r ∈ t.entries) :
    ∃ i, r.placed.map Prod.fst = some i ∧ j.entries[i]? = some r.entry := by
  obtain ⟨⟨i, root⟩, hp⟩ := Option.isSome_iff_exists.1 (h.placed r hr)
  have hplaced : ((i, root), r.toLogged) ∈ placedRows t.entries := List.mem_filterMap.2 ⟨r, hr, by rw [hp]; rfl⟩
  obtain ⟨⟨x, k⟩, hx, he⟩ := List.mem_map.1 (h.rows.logOf.mem_iff.1 hplaced)
  obtain rfl : k = i := congrArg (fun y => y.1.1) he
  obtain rfl : x = r.toLogged := congrArg Prod.snd he
  have hleaf := List.mem_zipIdx_iff_getElem?.1 hx
  obtain ⟨e, hi, he'⟩ := Option.map_eq_some_iff.1 ((List.getElem?_map ..).symm.trans hleaf)
  have hentry : e = r.entry := congrArg Logged.entry he'
  exact ⟨k, by rw [hp]; rfl, hentry ▸ hi⟩

/-- The key is on file in both, at the same place, or in neither. -/
theorem byKey (h : Holds B t j) (key : IdempotencyKey) :
    (t.byKey key = none ∧ j.byKey.get? key = none) ∨
    ∃ r i, r ∈ t.entries ∧ r.entry.idempotencyKey = key ∧ t.byKey key = some r ∧ r.placed.map Prod.fst = some i ∧
      j.byKey.get? key = some (r.entry.id, i, r.contentHash) := by
  cases hk : t.byKey key with
  | none =>
    refine .inl ⟨rfl, Option.eq_none_iff_forall_not_mem.2 fun v hv => ?_⟩
    obtain ⟨id, i, hash⟩ := v
    obtain ⟨x, hx, hkey, -⟩ := (h.kept.mapped.byKey _ _ _ _).1 hv
    obtain ⟨r, hr, rfl⟩ := h.mem_iff.1 (List.mem_of_getElem? hx)
    exact byKey_eq_none.1 hk r hr hkey
  | some r =>
    obtain ⟨hr, hkey⟩ := byKey_eq_some hk
    obtain ⟨i, hplace, hi⟩ := h.position hr
    exact .inr ⟨r, i, hr, hkey, rfl, hplace, (h.kept.mapped.byKey _ _ _ _).2 ⟨r.entry, hi, hkey, rfl, (h.contentHash hr).symm⟩⟩

end Holds

/-! ## The checks of a new entry -/

/-- What both stores check of an entry whose key is new. -/
structure Acceptable (j : Journal H P) (e : Entry H .balanced P) : Prop where
  id : ∀ x ∈ j.entries, x.id ≠ e.id
  reverses : ∀ original, e.reverses = some original →
    (∃ x ∈ j.entries, x.id = original ∧ x.reverses = none ∧ e.postings = x.postings.map (·.inverted)) ∧
    ∀ y ∈ j.entries, y.reverses ≠ some original
  limits : ∀ p ∈ e.postings, (j.accounts.limitOf p.account = .noCreditBalance →
      0 ≤ net p.key (postingsOf (j.entries ++ [e]))) ∧
    (j.accounts.limitOf p.account = .noDebitBalance → net p.key (postingsOf (j.entries ++ [e])) ≤ 0)

omit [Blake3 H] in
/-- A balance is within a limit by its debits less its credits. -/
theorem permits_iff {limit : BalanceLimit} {b : Balance P} : limit.permits b = true ↔
    (limit = .noCreditBalance → 0 ≤ b.side .debit - b.side .credit) ∧
    (limit = .noDebitBalance → b.side .debit - b.side .credit ≤ 0) := by
  have hle : ∀ a c : Amount P, a ≤ c ↔ a.minor ≤ c.minor := fun a c => Iff.rfl
  cases limit with
  | unlimited => simp [BalanceLimit.permits]
  | noCreditBalance => simp [BalanceLimit.permits, Balance.side, hle]
  | noDebitBalance => simp [BalanceLimit.permits, Balance.side, hle]

/-- **The journal takes the acceptable ones**, while the totals fit. -/
theorem accept_iff (hk : j.Kept) {e : Entry H .balanced P}
    (hpos : ∀ p ∈ e.postings, 0 ≤ p.amount.minor) (hfits : ∀ key d, gross d key (postingsOf (j.entries ++ [e])) ≤ i64Max) :
    (∃ balances, j.accept e = .ok balances) ↔ Acceptable j e := by
  have hn : ∀ p ∈ postingsOf (j.entries ++ [e]), 0 ≤ p.amount.minor := by
    intro p hp
    obtain ⟨x, hx, hpx⟩ := List.mem_flatMap.1 hp
    rcases List.mem_append.1 hx with hx | hx
    · exact ((hk.fromSeal x hx).postable.1 p hpx).le
    · exact hpos p (List.mem_singleton.1 hx ▸ hpx)
  obtain ⟨balances, hall⟩ := applyAll_ok hn hfits
  have happ : j.balances.applyAll e.postings = .ok balances := by
    rw [postingsOf, List.flatMap_append, TrialBalance.applyAll_append] at hall
    have hfolded : TrialBalance.new.applyAll (j.entries.flatMap (·.postings)) = .ok j.balances := hk.posted.folded
    rw [hfolded, List.flatMap_singleton] at hall
    exact hall
  have hside := (totals_of_applyAll hall).side
  have hpermitted : Journal.Permitted j.accounts balances e.postings ↔ ∀ p ∈ e.postings,
      (j.accounts.limitOf p.account = .noCreditBalance → 0 ≤ net p.key (postingsOf (j.entries ++ [e]))) ∧
      (j.accounts.limitOf p.account = .noDebitBalance → net p.key (postingsOf (j.entries ++ [e])) ≤ 0) := by
    refine forall₂_congr fun p _ => ?_
    rw [permits_iff, hside, hside]
    rfl
  have hid : j.byId.get? e.id = none ↔ ∀ x ∈ j.entries, x.id ≠ e.id := by
    constructor
    · intro hnone x hx hxid
      obtain ⟨i, hi⟩ := List.mem_iff_getElem?.1 hx
      rw [(hk.mapped.byId e.id i).2 ⟨x, hi, hxid⟩] at hnone
      cases hnone
    · intro hno
      refine Option.eq_none_iff_forall_not_mem.2 fun i hi => ?_
      obtain ⟨x, hx, hxid⟩ := (hk.mapped.byId e.id i).1 hi
      exact hno x (List.mem_of_getElem? hx) hxid
  have hrev : ∀ original, j.checkReversal e original = .ok () ↔
      (∃ x ∈ j.entries, x.id = original ∧ x.reverses = none ∧ e.postings = x.postings.map (·.inverted)) ∧
      ∀ y ∈ j.entries, y.reverses ≠ some original := by
    intro original
    rw [Journal.checkReversal_spec]
    have hnone : j.reversedBy.get? original = none ↔ ∀ y ∈ j.entries, y.reverses ≠ some original := by
      constructor
      · intro hnone y hy hyo
        rw [(hk.mapped.reversedBy original y.id).2 ⟨y, hy, hyo, rfl⟩] at hnone
        cases hnone
      · intro hno
        refine Option.eq_none_iff_forall_not_mem.2 fun id hid => ?_
        obtain ⟨y, hy, hyo, -⟩ := (hk.mapped.reversedBy original id).1 hid
        exact hno y hy hyo
    have hget : ∀ x, j.get original = some x ↔ x ∈ j.entries ∧ x.id = original := by
      intro x
      unfold Journal.get
      rw [Option.bind_eq_some_iff]
      constructor
      · rintro ⟨i, hi, hx⟩
        obtain ⟨y, hy, hyid⟩ := (hk.mapped.byId original i).1 hi
        obtain rfl : y = x := Option.some.inj (hy.symm.trans hx)
        exact ⟨List.mem_of_getElem? hy, hyid⟩
      · rintro ⟨hx, hxid⟩
        obtain ⟨i, hi⟩ := List.mem_iff_getElem?.1 hx
        exact ⟨i, (hk.mapped.byId original i).2 ⟨x, hi, hxid⟩, hi⟩
    simp only [hget, hnone]
    constructor
    · rintro ⟨x, ⟨hx, hxid⟩, hno, hxrev, hinv⟩
      exact ⟨⟨x, hx, hxid, hxrev, hinv⟩, hno⟩
    · rintro ⟨⟨x, hx, hxid, hxrev, hinv⟩, hno⟩
      exact ⟨x, ⟨hx, hxid⟩, hno, hxrev, hinv⟩
  constructor
  · rintro ⟨b, hacc⟩
    obtain ⟨hnone, hreverses, happ', hlimits⟩ := Journal.accept_eq_ok.1 hacc
    obtain rfl : balances = b := Except.ok.inj (happ.symm.trans happ')
    refine ⟨hid.1 hnone, fun original ho => (hrev original).1 (hreverses original ho), hpermitted.1 ?_⟩
    rcases j.checkLimits_cases e balances with ⟨-, hp⟩ | ⟨_, _, _, _, _, herr, -⟩
    · exact hp
    · rw [herr] at hlimits
      cases hlimits
  · intro hacc
    refine ⟨balances, Journal.accept_eq_ok.2 ⟨hid.2 hacc.id, fun original ho => (hrev original).2 (hacc.reverses original ho),
      happ, ?_⟩⟩
    rcases j.checkLimits_cases e balances with ⟨hok, -⟩ | ⟨_, _, _, _, _, -, hno⟩
    · exact hok
    · exact absurd (hpermitted.2 hacc.limits) hno

omit [Blake3 H] in
/-- The SQL loop passes when every key it has not seen is within its limit. -/
theorem checkLimitsLoop_iff {accounts : AccountRegistry} (haccounts : ∀ id, t.accounts.get? id = accounts.get id)
    (hnet : ∀ key, FitsI64 (t.netMinor key)) : ∀ (ps : List (Posting P)), (∀ p ∈ ps, B.handle p.account = p.account) →
    ∀ checked : List BalanceKey, t.checkLimitsLoop B checked ps = .ok () ↔ ∀ p ∈ ps, p.key ∈ checked ∨
      ((accounts.limitOf p.account = .noCreditBalance → 0 ≤ t.netMinor p.key) ∧
        (accounts.limitOf p.account = .noDebitBalance → t.netMinor p.key ≤ 0)) := by
  intro ps
  induction ps with
  | nil => simp [checkLimitsLoop_nil]
  | cons p ps ih =>
    intro hnarrow checked
    have ih := ih fun q hq => hnarrow q (List.mem_cons_of_mem _ hq)
    have hstored : ({ p.key with account := B.handle p.key.account } : BalanceKey) = p.key := by
      rw [show B.handle p.key.account = p.key.account from hnarrow p List.mem_cons_self]
    have hlimit : (t.accounts.get? p.key.account).elim BalanceLimit.unlimited (·.limit) = accounts.limitOf p.account := by
      rw [haccounts]
      rfl
    -- a key that passes is as good as one seen before
    have hseen : ∀ q : Posting P, q.key ∈ p.key :: checked ↔ q.key = p.key ∨ q.key ∈ checked := fun q => List.mem_cons
    rw [checkLimitsLoop_cons, hstored]
    by_cases hmem : p.key ∈ checked
    · simp only [hmem, if_true, ih, List.forall_mem_cons, true_or, true_and]
    · simp only [hmem, if_false, hlimit, List.forall_mem_cons, false_or]
      have hpass : ∀ (hp : (accounts.limitOf p.account = .noCreditBalance → 0 ≤ t.netMinor p.key) ∧
          (accounts.limitOf p.account = .noDebitBalance → t.netMinor p.key ≤ 0)),
          t.checkLimitsLoop B (p.key :: checked) ps = .ok () ↔ ∀ q ∈ ps, q.key ∈ checked ∨
            ((accounts.limitOf q.account = .noCreditBalance → 0 ≤ t.netMinor q.key) ∧
              (accounts.limitOf q.account = .noDebitBalance → t.netMinor q.key ≤ 0)) := by
        intro hp
        rw [ih]
        refine forall₂_congr fun q _ => ?_
        rw [hseen]
        constructor
        · rintro ((hq | hq) | hq)
          · have haccount : q.account = p.account := congrArg BalanceKey.account hq
            exact .inr (by rw [hq, haccount]; exact hp)
          · exact .inl hq
          · exact .inr hq
        · rintro (hq | hq)
          · exact .inl (.inr hq)
          · exact .inr hq
      have hfits := hnet p.key
      cases hl : accounts.limitOf p.account with
      | unlimited =>
        simp only [hl, reduceCtorEq, false_implies, true_and] at hpass ⊢
        exact hpass trivial
      | noCreditBalance =>
        simp only [hl, reduceCtorEq, false_implies, forall_true_left, and_true, hfits, not_true_eq_false, if_false, true_and,
          false_and, or_false] at hpass ⊢
        by_cases hp : 0 ≤ t.netMinor p.key
        · simp only [hp, if_true, true_and]
          exact hpass hp
        · simp [hp]
      | noDebitBalance =>
        simp only [hl, reduceCtorEq, false_implies, forall_true_left, true_and, hfits, not_true_eq_false, if_false, false_and,
          false_or] at hpass ⊢
        by_cases hp : t.netMinor p.key ≤ 0
        · simp only [hp, if_true, true_and]
          exact hpass hp
        · simp [hp]

/-! ## One entry -/

/-- What the caller of `append` has: an entry that was sealed, on accounts that are there,
under the identifier on file when it is sent again, and in range of the totals when it is new. -/
structure Sendable (j : Journal H P) (e : Entry H .balanced P) : Prop where
  fromSeal : Journal.FromSeal e
  registered : ∀ p ∈ e.postings, (j.accounts.get p.account).isSome
  resent : ∀ x ∈ j.entries, x.idempotencyKey = e.idempotencyKey → x.contentHash = e.contentHash → x.id = e.id
  fits : (∀ x ∈ j.entries, x.idempotencyKey ≠ e.idempotencyKey) →
    ∀ d key, gross d key (postingsOf (j.entries ++ [e])) ≤ i64Max

omit [Blake3 H] in
theorem netMinor_of_entries {entries : List (Entry H .balanced P)} (h : t.entries.map (·.entry) = entries)
    (key : BalanceKey) : t.netMinor key = net key (postingsOf entries) := by
  have hpostings : t.entries.flatMap (·.entry.postings) = postingsOf entries := by
    rw [postingsOf, ← h, List.flatMap_map]
  show net key (t.entries.flatMap (·.entry.postings)) = _
  rw [hpostings]

omit [Blake3 H] in
theorem stored_of_narrow {e : Entry H .balanced P} (h : ∀ p ∈ e.postings, B.handle p.account = p.account) :
    B.stored e = e := by
  have hpostings : (e.postings.map fun p => { p with account := B.handle p.account }) = e.postings := by
    refine (List.map_congr_left fun p hp => ?_).trans (List.map_id _)
    rw [h p hp]
    rfl
  unfold Backend.stored
  rw [hpostings]

omit [Blake3 H] in
theorem fitsI64_net {ps : List (Posting P)} (hn : ∀ p ∈ ps, 0 ≤ p.amount.minor)
    (hle : ∀ d key, gross d key ps ≤ i64Max) (key : BalanceKey) : FitsI64 (net key ps) := by
  have hd : 0 ≤ gross .debit key ps := gross_nonneg hn
  have hc : 0 ≤ gross .credit key ps := gross_nonneg hn
  have hd' := hle .debit key
  have hc' := hle .credit key
  have hmin : i64Min = -i64Max - 1 := by decide
  unfold net
  exact ⟨by omega, by omega⟩

section
variable {tail : Tail H} {e : Entry H .balanced P}

/-- **The tables take the acceptable ones** too. -/
theorem Holds.landed_iff (h : Holds B t j) (xid : Nat) (htail : TailOf tail (MemoryStore.leaves j)) (hs : Sendable j e)
    (hdates : B.storesDates e = true) (hkey : t.byKey e.idempotencyKey = none) :
    (∃ out t', Landed B xid t (some (tail.place e.contentHash)) e out t') ↔ Acceptable j e := by
  have hnew : ∀ x ∈ j.entries, x.idempotencyKey ≠ e.idempotencyKey := by
    intro x hx
    obtain ⟨r, hr, rfl⟩ := h.mem_iff.1 hx
    exact byKey_eq_none.1 hkey r hr
  have hpositive := hs.fromSeal.postable.1
  have hnarrow : ∀ p ∈ e.postings, B.handle p.account = p.account := fun p hp => h.narrow _ (hs.registered p hp)
  have hstored := stored_of_narrow hnarrow
  have hn : ∀ p ∈ postingsOf (j.entries ++ [e]), 0 ≤ p.amount.minor := by
    intro p hp
    obtain ⟨x, hx, hpx⟩ := List.mem_flatMap.1 hp
    rcases List.mem_append.1 hx with hx | hx
    · exact ((h.kept.fromSeal x hx).postable.1 p hpx).le
    · exact (hpositive p (List.mem_singleton.1 hx ▸ hpx)).le
  -- the limits are looked at in the tables with the row
  have hlimits : ∀ t', t.insertRow ⟨⟨B.stored e, e.contentHash⟩, some (tail.place e.contentHash), xid⟩ = some t' →
      (t'.checkLimitsLoop B [] e.postings = .ok () ↔ ∀ p ∈ e.postings, (j.accounts.limitOf p.account = .noCreditBalance →
        0 ≤ net p.key (postingsOf (j.entries ++ [e]))) ∧ (j.accounts.limitOf p.account = .noDebitBalance →
        net p.key (postingsOf (j.entries ++ [e])) ≤ 0)) := by
    intro t' hi
    obtain ⟨ht', -, -⟩ := insertRow_eq_some hi
    have hentries : t'.entries.map (·.entry) = j.entries ++ [e] := by
      rw [ht', List.map_append, h.entries, List.map_singleton, hstored]
    have haccounts : ∀ id, t'.accounts.get? id = j.accounts.get id := fun id => by
      rw [ht']
      exact h.accounts id
    have hnet := netMinor_of_entries hentries
    rw [checkLimitsLoop_iff haccounts
      (fun key => by rw [hnet]; exact fitsI64_net hn (hs.fits hnew) key) e.postings hnarrow []]
    simp only [List.not_mem_nil, false_or, hnet]
  constructor
  · rintro ⟨out, t', hl⟩
    rcases hl.row with ⟨r, hr, -⟩ | ⟨-, hi, hlim, -⟩
    · rw [hkey] at hr
      cases hr
    obtain ⟨-, hid, -⟩ := insertRow_eq_some hi
    have hfresh : ∀ x ∈ j.entries, x.id ≠ e.id := by
      intro x hx
      obtain ⟨r, hr, rfl⟩ := h.mem_iff.1 hx
      exact hid r hr
    refine ⟨hfresh, fun original ho => ?_, (hlimits t' hi).1 hlim⟩
    obtain ⟨⟨r, hr, hrest⟩, honce⟩ := (checkReverses_eq_ok h.rows.unique).1 hl.reverses original ho
    refine ⟨⟨r.entry, h.mem_iff.2 ⟨r, hr, rfl⟩, hrest⟩, fun y hy hyo => ?_⟩
    obtain ⟨r', hr', rfl⟩ := h.mem_iff.1 hy
    exact hid r' hr' (honce r' hr' hyo)
  · intro hacc
    have hid : ∀ r ∈ t.entries, r.entry.id ≠ e.id := fun r hr => hacc.id _ (h.mem_iff.2 ⟨r, hr, rfl⟩)
    have hreverses : t.checkReverses e = .ok () := by
      refine (checkReverses_eq_ok h.rows.unique).2 fun original ho => ?_
      obtain ⟨⟨x, hx, hrest⟩, hnone⟩ := hacc.reverses original ho
      obtain ⟨r, hr, rfl⟩ := h.mem_iff.1 hx
      exact ⟨⟨r, hr, hrest⟩, fun y hy hyo => absurd hyo (hnone _ (h.mem_iff.2 ⟨y, hy, rfl⟩))⟩
    have hholds : t.constraintsHold ⟨⟨B.stored e, e.contentHash⟩, some (tail.place e.contentHash), xid⟩ = true := by
      rw [hstored]
      unfold constraintsHold
      rw [Bool.and_eq_true, List.all_eq_true, List.all_eq_true]
      refine ⟨fun r hr => decide_eq_true ⟨hid r hr, .inr ?_, ?_⟩, fun p hp => decide_eq_true ⟨?_, hpositive p hp⟩⟩
      · obtain ⟨i, hplace, hi⟩ := h.position hr
        obtain ⟨hlt, -⟩ := List.getElem?_eq_some_iff.1 hi
        have hnext : tail.nextIndex = j.entries.length := htail.nextIndex.trans (List.length_map _)
        rw [hplace]
        intro heq
        have hindex : i = tail.nextIndex := Option.some.inj heq
        omega
      · cases ho : e.reverses with
        | none => exact .inl rfl
        | some original =>
          obtain ⟨-, hnone⟩ := hacc.reverses original ho
          exact .inr (hnone _ (h.mem_iff.2 ⟨r, hr, rfl⟩))
      · obtain ⟨a, ha⟩ := Option.isSome_iff_exists.1 (hs.registered p hp)
        exact OrdMap.contains_iff.2 ⟨a, (h.accounts _).trans ha⟩
    have hrow := show t.insertRow ⟨⟨B.stored e, e.contentHash⟩, some (tail.place e.contentHash), xid⟩ = some _ from
      if_pos hholds
    exact ⟨_, _, fun r hr hrid => absurd hrid (hid r hr), hreverses, hdates,
      .inr ⟨hkey, hrow, (hlimits _ hrow).2 hacc.limits, rfl⟩⟩

/-- **A retry passes the checks of the tables**: it is the entry on file. -/
theorem Holds.landed_retry (hb : Binding H) (h : Holds B t j) (xid : Nat) (hs : Sendable j e)
    (hdates : B.storesDates e = true) {r : EntryRow H P} (hr : r ∈ t.entries)
    (hkey : r.entry.idempotencyKey = e.idempotencyKey) (hby : t.byKey e.idempotencyKey = some r)
    (hhash : r.contentHash = e.contentHash) (placed : Option (Nat × H)) :
    Landed B xid t placed e ⟨r.entry.id, r.placed.map Prod.fst, e.contentHash, false⟩ t := by
  have hmem : r.entry ∈ j.entries := h.mem_iff.2 ⟨r, hr, rfl⟩
  have hcontent : r.entry.contentHash = e.contentHash := (h.contentHash hr).symm.trans hhash
  have hid := hs.resent _ hmem hkey hcontent
  have hshort : ∀ x : Entry H .balanced P, Journal.FromSeal x → x.postings.length < 2 ^ 64 := by
    intro x hx
    have hle := hx.postable.2
    unfold Journal.Short at hle
    omega
  have hsame : e = r.entry := by
    have heq := Entry.eq_of_encode hb.bytes (hshort _ (h.kept.fromSeal _ hmem)) (hshort _ hs.fromSeal)
      (hb.tagged _ _ _ hcontent)
    rw [heq, ← hid]
  have hreverses : t.checkReverses e = .ok () := by
    refine (checkReverses_eq_ok h.rows.unique).2 fun original ho => ?_
    rw [hsame] at ho ⊢
    obtain ⟨i, hi⟩ := List.mem_iff_getElem?.1 hmem
    obtain ⟨k, x, -, hk, hxid, hxrev, hinv⟩ := h.corrects.target i _ original hi ho
    obtain ⟨y, hy, rfl⟩ := h.mem_iff.1 (List.mem_of_getElem? hk)
    refine ⟨⟨y, hy, hxid, hxrev, hinv⟩, fun z hz hzo => ?_⟩
    obtain ⟨i', hi'⟩ := List.mem_iff_getElem?.1 (h.mem_iff.2 ⟨z, hz, rfl⟩)
    obtain rfl := h.corrects.once i' i _ _ original hi' hi hzo ho
    rw [Option.some.inj (hi'.symm.trans hi)]
  refine ⟨fun y hy hyid => ?_, hreverses, hdates, .inl ⟨r, hby, hhash, rfl, rfl⟩⟩
  have hthe : y = r := List.inj_on_of_nodup_map h.rows.unique hy hr (hyid.trans hid.symm)
  rw [hthe, hkey]

/-- The rows and the journal after an entry that both take. -/
theorem Holds.store (h : Holds B t j) (htail : TailOf tail (MemoryStore.leaves j)) (hs : Sendable j e)
    {balances : TrialBalance P} (hacc : Journal.Accepted j e balances) {t' : Tables H P} {xid : Nat}
    (hi : t.insertRow ⟨⟨B.stored e, e.contentHash⟩, some (tail.place e.contentHash), xid⟩ = some t') :
    Holds B t' (j.store e balances) ∧ TailOf (tail.push e.contentHash) (MemoryStore.leaves (j.store e balances)) := by
  have hstored : B.stored e = e := stored_of_narrow fun p hp => h.narrow _ (hs.registered p hp)
  rw [hstored] at hi
  have hrows := h.rows.insertPlaced (x := ⟨e, e.contentHash⟩) htail hi
  have hleaves : MemoryStore.leaves (j.store e balances) = MemoryStore.leaves j ++ [⟨e, e.contentHash⟩] := List.map_append
  obtain ⟨rfl, -, -⟩ := insertRow_eq_some hi
  rw [hleaves]
  refine ⟨⟨h.kept.store hacc hs.fromSeal, h.corrects.store h.kept.mapped hacc, hleaves ▸ hrows, ?_, ?_, h.accounts, h.narrow⟩,
    htail.push (x := ⟨e, e.contentHash⟩)⟩
  · rw [hleaves, ← h.leaves]
    exact List.map_append
  · intro r hr
    rcases List.mem_append.1 hr with hr | hr
    · exact h.placed r hr
    · rw [List.mem_singleton.1 hr]
      rfl

end

variable [DecidableEq H] {e : Entry H .balanced P}

/-- What an entry does to the journal: nothing where its key is on file. -/
def Takes (j : Journal H P) (e : Entry H .balanced P) (j' : Journal H P) : Prop :=
  (j' = j ∧ ∃ x ∈ j.entries, x.idempotencyKey = e.idempotencyKey) ∨
  ((∀ x ∈ j.entries, x.idempotencyKey ≠ e.idempotencyKey) ∧ Journal.SameBooks j j' ∧ j'.entries = j.entries ++ [e])

/-- **One entry.** Both stores take it, with one receipt, or both refuse it. -/
theorem Holds.appendOne (hb : Binding H) (h : Holds B t j) (xid : Nat) {tail : Tail H} (htail : TailOf tail (MemoryStore.leaves j))
    (hs : Sendable j e) (hdates : B.storesDates e = true) :
    (∃ out t' tail' j', j.recordValidated e = .ok (out, j') ∧ t.appendOne B xid tail e = .ok (out, t', tail') ∧
      Holds B t' j' ∧ TailOf tail' (MemoryStore.leaves j') ∧ Takes j e j') ∨
    (∃ err, j.recordValidated e = .error err) ∧ ∃ err, t.appendOne B xid tail e = .error err := by
  have hrefused : (∀ out t', ¬ Landed B xid t (some (tail.place e.contentHash)) e out t') →
      ∃ err, t.appendOne B xid tail e = .error err := by
    intro hno
    cases hone : t.appendOne B xid tail e with
    | error err => exact ⟨err, rfl⟩
    | ok x =>
      obtain ⟨out, t', tail'⟩ := x
      exact absurd (appendOne_eq_ok.1 hone).1 (hno out t')
  unfold Journal.recordValidated
  rcases h.byKey e.idempotencyKey with ⟨hnone, hfree⟩ | ⟨r, i, hr, hkey, hby, hplace, hfile⟩
  · -- the key is new
    have hreplay : j.replay e.idempotencyKey e.contentHash = none := Journal.replay_eq_none.2 hfree
    have hnew : ∀ x ∈ j.entries, x.idempotencyKey ≠ e.idempotencyKey := by
      intro x hx
      obtain ⟨r, hr, rfl⟩ := h.mem_iff.1 hx
      exact byKey_eq_none.1 hnone r hr
    have hmemory := accept_iff h.kept (fun p hp => (hs.fromSeal.postable.1 p hp).le) fun key d => hs.fits hnew d key
    have htables := h.landed_iff xid htail hs hdates hnone
    simp only [hreplay]
    cases hacc : j.accept e with
    | error err =>
      have hno : ¬ Acceptable j e := fun ha => by
        obtain ⟨b, hb⟩ := hmemory.2 ha
        rw [hacc] at hb
        cases hb
      exact .inr ⟨⟨err, rfl⟩, hrefused fun out t' hl => hno (htables.1 ⟨out, t', hl⟩)⟩
    | ok balances =>
      obtain ⟨out, t', hl⟩ := htables.2 (hmemory.1 ⟨balances, hacc⟩)
      obtain ⟨hid, hrev, happ, hlim⟩ := Journal.accept_eq_ok.1 hacc
      have haccepted : Journal.Accepted j e balances := ⟨hfree, hid,
        fun original ho => ⟨Journal.checkReversal_eq_ok (hrev original ho), hrev original ho⟩, happ, hlim⟩
      rcases hl.row with ⟨r, hr, -⟩ | ⟨-, hi, -, rfl⟩
      · rw [hnone] at hr
        cases hr
      obtain ⟨hholds, htail'⟩ := h.store htail hs haccepted hi
      have hindex : j.log.accumulator.size = tail.nextIndex := by
        rw [htail.nextIndex, h.kept.mapped.logged.size, MemoryStore.leaves, List.length_map]
      refine .inl ⟨_, t', tail.push e.contentHash, _, rfl, ?_, hholds, htail', .inr ⟨hnew, j.sameBooks_store e balances, rfl⟩⟩
      rw [hindex]
      exact appendOne_eq_ok.2 ⟨hl, rfl⟩
  · -- the key is on file
    by_cases hhash : r.contentHash = e.contentHash
    · have hreplay : j.replay e.idempotencyKey e.contentHash = some (.ok ⟨r.entry.id, some i, e.contentHash, false⟩) := by
        simp [Journal.replay, hfile, hhash]
      have hl := h.landed_retry hb xid hs hdates hr hkey hby hhash (some (tail.place e.contentHash))
      rw [hplace] at hl
      simp only [hreplay, Except.map]
      exact .inl ⟨_, t, tail, j, rfl, appendOne_eq_ok.2 ⟨hl, rfl⟩, h, htail,
        .inl ⟨rfl, r.entry, h.mem_iff.2 ⟨r, hr, rfl⟩, hkey⟩⟩
    · have hreplay : j.replay e.idempotencyKey e.contentHash =
          some (.error (.idempotencyConflict r.entry.id r.contentHash e.contentHash)) := by
        simp [Journal.replay, hfile, hhash]
      simp only [hreplay, Except.map]
      refine .inr ⟨⟨_, rfl⟩, hrefused fun out t' hl => ?_⟩
      rcases hl.row with ⟨r', hr', hsame, -⟩ | ⟨hnone, -⟩
      · rw [hby] at hr'
        cases hr'
        exact hhash hsame
      · rw [hby] at hnone
        cases hnone

/-! ## A batch -/

/-- A batch of what the caller has. -/
structure Recordable (j : Journal H P) (batch : List (Entry H .balanced P)) : Prop where
  fromSeal : ∀ e ∈ batch, Journal.FromSeal e
  registered : ∀ e ∈ batch, ∀ p ∈ e.postings, (j.accounts.get p.account).isSome
  resent : ∀ x ∈ j.entries ++ batch, ∀ e ∈ batch, x.idempotencyKey = e.idempotencyKey →
    x.contentHash = e.contentHash → x.id = e.id
  fits : ∀ d key, gross d key (postingsOf (j.entries ++ fresh (j.entries.map (·.idempotencyKey)) batch)) ≤ i64Max

omit [DecidableEq H] in
theorem Recordable.first {es : List (Entry H .balanced P)} (h : Recordable j (e :: es))
    (hk : j.Kept) : Sendable j e where
  fromSeal := h.fromSeal e List.mem_cons_self
  registered := h.registered e List.mem_cons_self
  resent x hx := h.resent x (List.mem_append_left _ hx) e List.mem_cons_self
  fits hnew d key := by
    have hfresh : e.idempotencyKey ∉ j.entries.map (·.idempotencyKey) := by
      intro hmem
      obtain ⟨x, hx, hkey⟩ := List.mem_map.1 hmem
      exact hnew x hx hkey
    have hle := h.fits d key
    rw [fresh, if_neg hfresh] at hle
    have hsub : (j.entries ++ [e]).Sublist (j.entries ++ e :: fresh (j.entries.map (·.idempotencyKey) ++ [e.idempotencyKey]) es) :=
      (List.Sublist.refl _).append ((List.nil_sublist _).cons_cons e)
    refine (gross_le (hsub.flatMap _) fun p hp => ?_).trans hle
    obtain ⟨x, hx, hpx⟩ := List.mem_flatMap.1 hp
    rcases List.mem_append.1 hx with hx | hx
    · exact ((hk.fromSeal x hx).postable.1 p hpx).le
    · have hin : x ∈ e :: es := by
        rcases List.mem_cons.1 hx with rfl | hx
        · exact List.mem_cons_self
        · exact List.mem_cons_of_mem _ (mem_of_mem_fresh hx)
      exact ((h.fromSeal x hin).postable.1 p hpx).le

omit [DecidableEq H] in
/-- What is left of the batch, after its first entry. -/
theorem Recordable.rest {es : List (Entry H .balanced P)} {j' : Journal H P}
    (h : Recordable j (e :: es)) (ht : Takes j e j') : Recordable j' es := by
  rcases ht with ⟨rfl, x, hx, hkey⟩ | ⟨hnew, hbooks, hentries⟩
  · have hfile : e.idempotencyKey ∈ j'.entries.map (·.idempotencyKey) := List.mem_map.2 ⟨x, hx, hkey⟩
    refine ⟨fun y hy => h.fromSeal y (List.mem_cons_of_mem _ hy), fun y hy => h.registered y (List.mem_cons_of_mem _ hy),
      fun y hy z hz => h.resent y ?_ z (List.mem_cons_of_mem _ hz), fun d key => ?_⟩
    · exact (List.Sublist.refl j'.entries).append (List.sublist_cons_self e es) |>.subset hy
    · have hle := h.fits d key
      rwa [fresh, if_pos hfile] at hle
  · have hfresh : e.idempotencyKey ∉ j.entries.map (·.idempotencyKey) := by
      intro hmem
      obtain ⟨x, hx, hkey⟩ := List.mem_map.1 hmem
      exact hnew x hx hkey
    refine ⟨fun y hy => h.fromSeal y (List.mem_cons_of_mem _ hy), fun y hy p hp => ?_,
      fun y hy z hz => h.resent y ?_ z (List.mem_cons_of_mem _ hz), fun d key => ?_⟩
    · rw [hbooks.accounts]
      exact h.registered y (List.mem_cons_of_mem _ hy) p hp
    · rw [hentries, List.append_assoc] at hy
      exact hy
    · have hle := h.fits d key
      rw [fresh, if_neg hfresh] at hle
      rw [hentries, List.map_append, List.append_assoc]
      exact hle

/-- **A batch**, entry by entry. -/
theorem Holds.appendEach (hb : Binding H) (xid : Nat) (batch : List (Entry H .balanced P)) :
    ∀ {t : Tables H P} {j : Journal H P} {tail : Tail H}, Holds B t j → TailOf tail (MemoryStore.leaves j) →
    Recordable j batch → (∀ e ∈ batch, B.storesDates e = true) →
    (∃ out t' tail' j', j.recordEach batch = (.ok out, j') ∧ t.appendEach B xid tail batch = .ok (out, t', tail') ∧
      Holds B t' j' ∧ TailOf tail' (MemoryStore.leaves j')) ∨
    (∃ err j', j.recordEach batch = (.error err, j')) ∧ ∃ err, t.appendEach B xid tail batch = .error err := by
  induction batch with
  | nil => exact fun h htail _ _ => .inl ⟨[], _, _, _, rfl, rfl, h, htail⟩
  | cons e es ih =>
    intro t j tail h htail hrec hdates
    unfold Journal.recordEach Tables.appendEach
    rcases h.appendOne hb xid htail (hrec.first h.kept) (hdates e List.mem_cons_self) with
      ⟨out, t₁, tail₁, j₁, hone, hone', h₁, htail₁, htakes⟩ | ⟨⟨err, hone⟩, err', hone'⟩
    · simp only [hone, hone']
      rcases ih h₁ htail₁ (hrec.rest htakes) (fun x hx => hdates x (List.mem_cons_of_mem _ hx)) with
        ⟨outs, t₂, tail₂, j₂, hrest, hrest', h₂, htail₂⟩ | ⟨⟨err, j₂, hrest⟩, err', hrest'⟩
      · refine .inl ⟨out :: outs, t₂, tail₂, j₂, by rw [hrest]; rfl, ?_, h₂, htail₂⟩
        simp only [bind, Except.bind, hrest']
      · refine .inr ⟨⟨err, j₂, by rw [hrest]; rfl⟩, err', ?_⟩
        simp only [bind, Except.bind, hrest']
    · simp only [hone, hone']
      exact .inr ⟨⟨err, j, rfl⟩, err', rfl⟩

end Tables

end DoubleEntry.L4
