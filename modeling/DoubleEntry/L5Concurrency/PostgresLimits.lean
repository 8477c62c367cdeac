import DoubleEntry.L3Ledger.Limits
import DoubleEntry.L5Concurrency.PostgresRows

/-!
# Balance limits across transactions

A transaction that posted to a limited key either still has the key to check, or it
holds the row of the account and the sum it saw is what it leaves behind
(`Txn.Guards`). Two transactions never hold one row, so the second sums what the
first committed (`limits_hold`).

**Assumptions.** The key is within its limit before any transaction posts, and its account keeps
the limit (`KeepsLimit`). `FOR UPDATE` waits for its holder, and is held to the end.

**Results.**
* `netMinor_view`: a sum sees what is committed and what its own transaction wrote.
* `Next.guards`: a statement keeps the guard of a key.
* `LimitInv.commit`: what is committed is permitted.
* `limits_hold`: runs.
-/
namespace DoubleEntry.L5.Postgres

open DoubleEntry.Core DoubleEntry.L1 DoubleEntry.L2 DoubleEntry.L3 DoubleEntry.L4

section
variable {H : Type} {P : Scale} {key : BalanceKey} {limit : BalanceLimit} {t t' : Txn H P} {committed : Tables H P}

/-! ## Sums over rows -/

/-- Debits less credits of a key in some rows. -/
def netRows (rows : List (EntryRow H P)) (key : BalanceKey) : Int :=
  gross .debit key (rows.flatMap (·.entry.postings)) - gross .credit key (rows.flatMap (·.entry.postings))

theorem netRows_append (rows rows' : List (EntryRow H P)) (key : BalanceKey) :
    netRows (rows ++ rows') key = netRows rows key + netRows rows' key := by
  unfold netRows
  rw [List.flatMap_append, gross_append, gross_append]
  omega

def Touched (rows : List (EntryRow H P)) (key : BalanceKey) : Prop := ∃ r ∈ rows, ∃ p ∈ r.entry.postings, p.key = key

theorem netRows_untouched {rows : List (EntryRow H P)} (h : ¬ Touched rows key) : netRows rows key = 0 := by
  have hnil : ∀ d, (rows.flatMap (·.entry.postings)).filter (fun p => p.key = key ∧ p.direction = d) = [] := by
    refine fun d => List.filter_eq_nil_iff.2 fun p hp => ?_
    obtain ⟨r, hr, hpr⟩ := List.mem_flatMap.1 hp
    have hne : p.key ≠ key := fun e => h ⟨r, hr, p, hpr, e⟩
    simp [hne]
  unfold netRows gross
  rw [hnil, hnil]
  rfl

/-- A transaction sums what is committed and what it wrote. -/
theorem netMinor_view : (t.view committed).netMinor key = committed.netMinor key + netRows t.rows key := by
  have hpostings : (t.view committed).entries.flatMap (·.entry.postings) =
      (committed.entries ++ t.rows).flatMap (·.entry.postings) := by
    have h := congrArg (List.flatMap (·.postings)) (t.entries_view committed)
    rwa [List.flatMap_map, List.flatMap_map] at h
  show netRows (t.view committed).entries key = netRows committed.entries key + netRows t.rows key
  rw [← netRows_append]
  unfold netRows
  rw [hpostings]

/-! ## Keys left to check -/

theorem unchecked_eq_none {checked : List BalanceKey} {ps : List (Posting P)} (h : unchecked checked ps = none) :
    ∀ q ∈ ps, q.key ∈ checked := by
  induction ps with
  | nil => simp
  | cons p ps ih =>
    rw [unchecked] at h
    split at h
    · rename_i hp
      exact List.forall_mem_cons.2 ⟨List.contains_iff_mem.1 hp, ih h⟩
    · cases h

theorem unchecked_eq_some {checked : List BalanceKey} {ps rest : List (Posting P)} {p : Posting P}
    (h : unchecked checked ps = some (p, rest)) : ∀ q ∈ ps, q.key ∉ checked → q ∈ p :: rest := by
  induction ps with
  | nil => simp
  | cons x ps ih =>
    rw [unchecked] at h
    split at h
    · rename_i hx
      exact List.forall_mem_cons.2 ⟨fun hn => absurd (List.contains_iff_mem.1 hx) hn, ih h⟩
    · cases h
      exact fun q hq _ => hq

theorem storedKey_congr {p q : Posting P} (h : q.key = p.key) : storedKey q = storedKey p :=
  congrArg (fun k : BalanceKey => { k with account := Backend.postgres.handle k.account }) h

/-- A posting of the key whose own key is not checked yet. -/
def Left (key : BalanceKey) (checked : List BalanceKey) (ps : List (Posting P)) : Prop :=
  ∃ q ∈ ps, storedKey q = key ∧ q.key ∉ checked

theorem Left.of_cons {checked : List BalanceKey} {p : Posting P} {ps : List (Posting P)}
    (h : Left key checked (p :: ps)) (hp : storedKey p ≠ key) : Left key (p.key :: checked) ps := by
  obtain ⟨q, hq, hkey, hn⟩ := h
  have hne : q.key ≠ p.key := fun e => hp ((storedKey_congr e).symm.trans hkey)
  refine ⟨q, (List.mem_cons.1 hq).resolve_left fun e => hne (congrArg _ e), hkey, fun hm => ?_⟩
  exact (List.mem_cons.1 hm).elim hne hn

/-- The key is among those the transaction checks next. -/
def Txn.Checks (key : BalanceKey) (t : Txn H P) : Prop :=
  match t.control with
  | .claim _ checked p ps => Left key checked (p :: ps)
  | .sum _ checked p ps _ => Left key checked (p :: ps)
  | _ => False

/-- The row of the account is held, and what it leaves behind is permitted. -/
structure Txn.Settled (committed : Tables H P) (key : BalanceKey) (limit : BalanceLimit) (t : Txn H P) : Prop where
  locked : key.account ∈ t.accountLocks
  permitted : permits limit (committed.netMinor key + netRows t.rows key) = true

structure Txn.Guards (committed : Tables H P) (key : BalanceKey) (limit : BalanceLimit) (t : Txn H P) : Prop where
  settled : ¬ Touched t.rows key ∨ t.Checks key ∨ t.Settled committed key limit
  summing : ∀ e checked p ps l, t.control = .sum e checked p ps l → storedKey p = key →
    l = limit ∧ key.account ∈ t.accountLocks

namespace Txn

theorem nextEntry_ne_sum {e : Entry H .balanced P} {checked : List BalanceKey} {p : Posting P} {ps : List (Posting P)}
    {l : BalanceLimit} : t.nextEntry.control ≠ .sum e checked p ps l := by
  unfold nextEntry entryControl
  cases t.todo with
  | nil => by_cases h : t.job = .inline <;> simp [h]
  | cons e es => simp

theorem nextRow_ne_sum {e : Entry H .balanced P} {checked : List BalanceKey} {p : Posting P} {ps : List (Posting P)}
    {l : BalanceLimit} : t.nextRow.control ≠ .sum e checked p ps l := by
  unfold nextRow rowControl
  cases t.picked <;> simp

theorem Settled.of_eq (h : t.Settled committed key limit) (hrows : t'.rows = t.rows)
    (hlocks : ∀ a ∈ t.accountLocks, a ∈ t'.accountLocks) : t'.Settled committed key limit :=
  ⟨hlocks _ h.locked, hrows ▸ h.permitted⟩

namespace Guards

/-- Nothing inserted, no lock given back, and no sum to check. -/
theorem of_idle (h : t.Guards committed key limit) (hidle : ¬ t.Checks key) (hrows : t'.rows = t.rows)
    (hlocks : t'.accountLocks = t.accountLocks) (hsum : ∀ e checked p ps l, t'.control ≠ .sum e checked p ps l) :
    t'.Guards committed key limit where
  settled := by
    rw [hrows]
    rcases h.settled with hn | hc | hs
    · exact .inl hn
    · exact absurd hc hidle
    · exact .inr (.inr (hs.of_eq hrows fun a ha => hlocks ▸ ha))
  summing e checked p ps l hc := absurd hc (hsum e checked p ps l)

theorem finished : (Txn.finished : Txn H P).Guards committed key limit where
  settled := .inl fun ⟨_, hr, _⟩ => List.not_mem_nil hr
  summing _ _ _ _ _ hc := by cases hc

variable [Blake3 H]

theorem nextClaim {e : Entry H .balanced P} {checked : List BalanceKey} {ps : List (Posting P)}
    (h : ¬ Touched t.rows key ∨ Left key checked ps ∨ t.Settled committed key limit) :
    (t.nextClaim e checked ps).Guards committed key limit := by
  obtain ⟨hnone, heq⟩ | ⟨p, rest, hsome, heq⟩ := t.nextClaim_cases e checked ps <;> rw [heq]
  · refine ⟨?_, fun _ _ _ _ _ hc => absurd hc nextEntry_ne_sum⟩
    rcases h with hn | ⟨q, hq, -, hleft⟩ | hs
    · exact .inl hn
    · exact absurd (unchecked_eq_none hnone q hq) hleft
    · exact .inr (.inr (hs.of_eq rfl fun _ ha => ha))
  · refine ⟨?_, fun _ _ _ _ _ hc => by cases hc⟩
    rcases h with hn | ⟨q, hq, hkey, hleft⟩ | hs
    · exact .inl hn
    · exact .inr (.inl ⟨q, unchecked_eq_some hsome q hq hleft, hkey, hleft⟩)
    · exact .inr (.inr (hs.of_eq rfl fun _ ha => ha))

end Guards

variable [Blake3 H] {others : List (Txn H P)} {xmin : Nat}

/-- A statement keeps the guard of a key whose limit is in force. -/
theorem Next.guards (h : t.Next committed others xmin t') (ht : t.Guards committed key limit)
    (hforce : limitOf committed key.account = limit) (hlimited : limit ≠ .unlimited) :
    t'.Guards committed key limit := by
  have checks_eq : ∀ {control : Control H P}, t.control = control →
      t.Checks key = { t with control := control }.Checks key := fun h => by unfold Checks; rw [h]
  have not_checks : ∀ {control : Control H P}, t.control = control → ¬ { t with control := control }.Checks key →
      ¬ t.Checks key := fun h hn => by rwa [checks_eq h]
  cases h with
  | finished => exact .finished
  | lock control =>
    refine ht.of_idle (not_checks control id) rfl rfl fun _ _ _ _ _ => ?_
    by_cases hjob : t.job = .pass <;> simp [hjob]
  | pick control =>
    refine ht.of_idle (not_checks control id) rfl rfl fun _ _ _ _ _ => ?_
    by_cases hempty : ((t.view committed).sequenceable xmin).isEmpty <;> simp [hempty]
  | nextIndex control => exact ht.of_idle (not_checks control id) rfl rfl fun _ _ _ _ _ => by simp
  | subtrees control => exact ht.of_idle (not_checks control id) rfl rfl fun _ _ _ _ _ => by simp
  | countRows control => exact ht.of_idle (not_checks control id) rfl rfl fun _ _ _ _ _ => nextRow_ne_sum
  | countEntries control => exact ht.of_idle (not_checks control id) rfl rfl fun _ _ _ _ _ => nextEntry_ne_sum
  | update control => exact ht.of_idle (not_checks control id) rfl rfl fun _ _ _ _ _ => nextRow_ne_sum
  | @unique e control =>
    refine ht.of_idle (not_checks control id) rfl rfl fun _ _ _ _ _ => ?_
    by_cases hrev : e.reverses.isSome <;> simp [hrev]
  | reversal control => exact ht.of_idle (not_checks control id) rfl rfl fun _ _ _ _ _ => by simp
  | taken control => exact ht.of_idle (not_checks control id) rfl rfl fun _ _ _ _ _ => by simp
  | @inserted e seen control =>
    refine .nextClaim ?_
    by_cases hnew : Touched [t.rowOf e] key
    · obtain ⟨r, hr, p, hp, hkey⟩ := hnew
      obtain rfl := List.mem_singleton.1 hr
      obtain ⟨q, hq, rfl⟩ := List.mem_map.1 hp
      exact .inr (.inl ⟨q, hq, hkey, List.not_mem_nil⟩)
    · rcases ht.settled with hn | hc | hs
      · refine .inl fun ⟨r, hr, hp⟩ => ?_
        rcases List.mem_append.1 hr with hr | hr
        · exact hn ⟨r, hr, hp⟩
        · exact hnew ⟨r, hr, hp⟩
      · exact absurd hc (not_checks control id)
      · refine .inr (.inr ⟨hs.locked, ?_⟩)
        rw [netRows_append, netRows_untouched hnew, add_zero]
        exact hs.permitted
  | replayed control => exact ht.of_idle (not_checks control id) rfl rfl fun _ _ _ _ _ => nextEntry_ne_sum
  | @unlimited e checked p ps control hunlimited =>
    refine .nextClaim ?_
    have hne : storedKey p ≠ key := by
      rintro rfl
      exact hlimited (hforce.symm.trans hunlimited)
    exact ht.settled.imp_right (.imp_left fun hc => .of_cons ((checks_eq control).mp hc) hne)
  | @claimed e checked p ps control free =>
    refine ⟨?_, fun e' checked' p' ps' l hc hkey => ?_⟩
    · refine ht.settled.imp_right (.imp (fun hc => (checks_eq control).mp hc) fun hs => ?_)
      exact hs.of_eq rfl fun _ ha => List.mem_cons_of_mem _ ha
    · cases hc
      subst hkey
      exact ⟨hforce, List.mem_cons_self⟩
  | @permitted e checked p ps l control hpermits =>
    refine .nextClaim ?_
    by_cases hkey : storedKey p = key
    · obtain ⟨rfl, hlocked⟩ := ht.summing _ _ _ _ _ control hkey
      refine .inr (.inr ⟨hlocked, ?_⟩)
      rw [← netMinor_view, ← hkey]
      exact hpermits
    · exact ht.settled.imp_right (.imp_left fun hc => .of_cons ((checks_eq control).mp hc) hkey)
  | store control => exact ht.of_idle (not_checks control id) rfl rfl fun _ _ _ _ _ => by simp

/-- A row of `accounts` is claimed when no other transaction holds it. -/
theorem Next.accountLocks (h : t.Next committed others xmin t') : ∀ a ∈ t'.accountLocks,
    a ∈ t.accountLocks ∨ ∀ u ∈ others, a ∉ u.accountLocks := by
  cases h with
  | finished => exact fun a ha => (List.not_mem_nil ha).elim
  | claimed control free =>
    intro a ha
    rcases List.mem_cons.1 ha with rfl | ha
    · exact .inr free
    · exact .inl ha
  | inserted => exact fun a ha => .inl (by simpa using ha)
  | unlimited => exact fun a ha => .inl (by simpa using ha)
  | permitted => exact fun a ha => .inl (by simpa using ha)
  | _ => exact fun a ha => .inl ha

end Txn

/-! ## Runs -/

/-- The limit of a key is in force and kept, and every transaction guards it. -/
structure LimitInv (key : BalanceKey) (limit : BalanceLimit) (s : Db H P) : Prop where
  inForce : limitOf s.tables key.account = limit
  kept : permits limit (s.tables.netMinor key) = true
  locks : s.txns.Pairwise fun t u => t.accountLocks.Disjoint u.accountLocks
  txns : ∀ t ∈ s.txns, t.Guards s.tables key limit

theorem Txn.Guards.congr {committed' : Tables H P} (h : t.Guards committed key limit)
    (hnet : committed'.netMinor key = committed.netMinor key) : t.Guards committed' key limit :=
  ⟨h.settled.imp_right (.imp_right fun hs => ⟨hs.locked, hnet ▸ hs.permitted⟩), h.summing⟩

/-- What a transaction that guards the key commits is permitted, and no other holds the row. -/
theorem LimitInv.commit {s : Db H P} (h : LimitInv key limit s) {i : Nat} (slot : s.txns[i]? = some t)
    (control : t.control = .commit) : LimitInv key limit (s.commit i t) := by
  obtain ⟨ht, hothers⟩ := (forall_slot slot).1 h.txns
  obtain ⟨hdisjoint, hlocks⟩ := (pairwise_slot (fun hd => hd.symm) slot).1 h.locks
  have hnet : (t.view s.tables).netMinor key = s.tables.netMinor key + netRows t.rows key := netMinor_view
  have hlocks' : (s.commit i t).txns.Pairwise fun t u => t.accountLocks.Disjoint u.accountLocks :=
    (pairwise_set_slot (fun hd => hd.symm) slot).2 ⟨fun u _ => List.disjoint_nil_left _, hlocks⟩
  rcases ht.settled with hn | hc | hs
  · rw [netRows_untouched hn, add_zero] at hnet
    exact ⟨h.inForce, hnet ▸ h.kept, hlocks', (forall_set_slot slot).2
      ⟨.finished, fun u hu => (hothers u hu).congr hnet⟩⟩
  · rw [Txn.Checks, control] at hc
    exact hc.elim
  · refine ⟨h.inForce, hnet ▸ hs.permitted, hlocks', (forall_set_slot slot).2 ⟨.finished, fun u hu => ?_⟩⟩
    refine ⟨(hothers u hu).settled.imp_right (.imp_right fun hsu => ?_), (hothers u hu).summing⟩
    exact (hdisjoint u hu hs.locked hsu.locked).elim

variable [Blake3 H] [DecidableEq H]

/-- No upsert of the account changes its limit. -/
def KeepsLimit (key : BalanceKey) (s : Db H P) (l : Label H P) : Prop :=
  ∀ s' ∈ s.step l, limitOf s'.tables key.account = limitOf s.tables key.account

instance (key : BalanceKey) (s : Db H P) (l : Label H P) : Decidable (KeepsLimit key s l) :=
  inferInstanceAs (Decidable (∀ s' ∈ s.step l, limitOf s'.tables key.account = limitOf s.tables key.account))

theorem limitInv_stable (ledger : LedgerId) (hlimited : limit ≠ .unlimited) :
    ((postgres ledger : LTS (Db H P) (Label H P)).restrict (KeepsLimit key)).Stable (LimitInv key limit) := by
  intro s l s' hs ⟨st, hkeeps⟩
  have hforce : limitOf s'.tables key.account = limit := (hkeeps s' st).trans hs.inForce
  cases Db.step_cases st with
  | begun job batch =>
    have hstart : (Txn.start job batch : Txn H P).accountLocks = [] := by cases job <;> rfl
    refine ⟨hforce, hs.kept, List.pairwise_append.2 ⟨hs.locks, List.pairwise_singleton _ _, fun t _ u hu => ?_⟩, ?_⟩
    · rw [List.mem_singleton.1 hu, hstart]
      exact List.disjoint_nil_right _
    · intro t ht
      rcases List.mem_append.1 ht with ht | ht
      · exact hs.txns t ht
      · obtain rfl := List.mem_singleton.1 ht
        refine ⟨.inl fun ⟨r, hr, _⟩ => by simp at hr, fun e checked p ps l hc => ?_⟩
        cases job with
        | deferred => exact absurd hc Txn.nextEntry_ne_sum
        | _ => cases hc
  | xidTaken slot =>
    obtain ⟨ht, hothers⟩ := (forall_slot slot).1 hs.txns
    obtain ⟨hdisjoint, hlocks⟩ := (pairwise_slot (fun hd => hd.symm) slot).1 hs.locks
    refine ⟨hforce, hs.kept, (pairwise_set_slot (fun hd => hd.symm) slot).2 ⟨hdisjoint, hlocks⟩, ?_⟩
    exact (forall_set_slot slot).2 ⟨⟨ht.settled.imp_right (.imp_right fun hst => ⟨hst.locked, hst.permitted⟩), ht.summing⟩,
      hothers⟩
  | ran slot _ next =>
    obtain ⟨ht, hothers⟩ := (forall_slot slot).1 hs.txns
    obtain ⟨hdisjoint, hlocks⟩ := (pairwise_slot (fun hd => hd.symm) slot).1 hs.locks
    refine ⟨hforce, hs.kept, (pairwise_set_slot (fun hd => hd.symm) slot).2 ⟨fun u hu a ha hau => ?_, hlocks⟩, ?_⟩
    · rcases next.accountLocks a ha with hold | hfree
      · exact hdisjoint u hu hold hau
      · exact hfree u hu hau
    · exact (forall_set_slot slot).2 ⟨next.guards ht hs.inForce hlimited, hothers⟩
  | committed slot control => exact hs.commit slot control
  | failed slot =>
    obtain ⟨-, hothers⟩ := (forall_slot slot).1 hs.txns
    obtain ⟨-, hlocks⟩ := (pairwise_slot (fun hd => hd.symm) slot).1 hs.locks
    exact ⟨hforce, hs.kept, (pairwise_set_slot (fun hd => hd.symm) slot).2 ⟨fun _ _ => List.disjoint_nil_left _, hlocks⟩,
      (forall_set_slot slot).2 ⟨.finished, hothers⟩⟩
  | registered ok =>
    obtain ⟨accounts, rfl⟩ := Tables.registerAccount_eq_ok ok
    exact ⟨hforce, hs.kept, hs.locks, fun t ht => (hs.txns t ht).congr rfl⟩

/-- No transaction inserted a row or holds one of `accounts`. -/
def Db.Quiet (s : Db H P) : Prop := ∀ t ∈ s.txns, t.rows = [] ∧ t.accountLocks = [] ∧ t.claiming = none

/-- **Limits hold under concurrency.** A key within the limit of its account before any
transaction posts is within it in every state committed from there on, as long as the
limit stays: for any transactions and any order of their statements. -/
theorem limits_hold (ledger : LedgerId) {s u : Db H P} {ls : List (Label H P)} (key : BalanceKey)
    (quiet : s.Quiet)
    (satisfied : permits (limitOf s.tables key.account) (s.tables.netMinor key) = true)
    (run : ((postgres ledger).restrict (KeepsLimit key)).Run s ls u) :
    permits (limitOf u.tables key.account) (u.tables.netMinor key) = true := by
  by_cases hlimited : limitOf s.tables key.account = .unlimited
  · have hkept : ((postgres ledger : LTS (Db H P) (Label H P)).restrict (KeepsLimit key)).Stable
        fun u => limitOf u.tables key.account = .unlimited :=
      fun _ _ u' h ⟨st, hkeeps⟩ => (hkeeps u' st).trans h
    rw [hkept.run run hlimited]
    rfl
  · have hlocks : s.txns.Pairwise fun t u => t.accountLocks.Disjoint u.accountLocks := by
      refine List.pairwise_of_forall_mem_list fun t ht u _ => ?_
      rw [(quiet t ht).2.1]
      exact List.disjoint_nil_left _
    have hguards : ∀ t ∈ s.txns, t.Guards s.tables key (limitOf s.tables key.account) := by
      intro t ht
      obtain ⟨hrows, -, hclaiming⟩ := quiet t ht
      refine ⟨.inl fun ⟨r, hr, _⟩ => by simp [hrows] at hr, fun e checked p ps l hc => ?_⟩
      rw [Txn.claiming, hc] at hclaiming
      cases hclaiming
    have hinv : LimitInv key (limitOf s.tables key.account) s := ⟨rfl, satisfied, hlocks, hguards⟩
    have h := (limitInv_stable ledger hlimited).run run hinv
    rw [h.inForce]
    exact h.kept

end

/-! ## Cash that may not be overdrawn -/

/-- The sale of March is on file, and cash may not have a credit balance. -/
def limitSet : List (Label Preimage cents) :=
  [.registerAccount ⟨cashId, { cash with limit := .noCreditBalance }⟩, .registerAccount ⟨salesId, sales⟩,
    .begin .deferred [saleOfMarch.withState .balanced]] ++ [0, 0, 0, 0, 0, 0, 0].map .statement

/-- Two calls pay the same ten euro out: each inserts its entry before the other checks. -/
def paidOutTwice : List (Label Preimage cents) :=
  [.begin .deferred [Journal.payout.withState .balanced], .begin .deferred [Journal.takenBack]] ++
    [1, 1, 1, 2, 2, 2, 2, 1, 1, 1, 1, 2, 2].map .statement

def cashKey : BalanceKey := ⟨cashId, .eur, .settled⟩

set_option maxRecDepth 20000 in
/-- Not vacuous: one call is answered and leaves nothing, the other is refused. -/
theorem paidOutTwice_limited : (afterSteps (limitSet ++ paidOutTwice)).commits.length = 2 ∧
    permits (limitOf (afterSteps (limitSet ++ paidOutTwice)).tables cashKey.account)
      ((afterSteps (limitSet ++ paidOutTwice)).tables.netMinor cashKey) = true :=
  ⟨by decide, limits_hold books cashKey (by unfold Db.Quiet; decide) (by decide) (run_restrict_afterSteps (by decide) (by decide))⟩

end DoubleEntry.L5.Postgres
