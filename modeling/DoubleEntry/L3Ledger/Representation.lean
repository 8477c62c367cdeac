import DoubleEntry.L3Ledger.Indexes
import DoubleEntry.L3Ledger.VerifyBalanced

/-!
# What a journal derives from its entries

With the maps of `Mapped`: the log is the log of the content hashes, the sites of a
key are the positions of its postings in log order, and its row of the balances is
their fold (`Represents`). Every operation on sealed entries keeps this, a refused
batch because it gives the whole journal back, so `verify_log` and `verify_balances`
hold (`verified_of_reachable`), and a batch is its entries recorded one by one, or
nothing (`recordBatch_atomic`).

**Assumptions.** Operations on sealed entries (`sealedOperations`); the context an entry was
sealed in may be any.

**Results.**
* `Kept.operate`: one operation keeps what is derived.
* `verified_of_reachable`: `verify_log` and `verify_balances` hold in every state.
* `recordBatch_atomic`: a refused batch leaves the journal equal, an accepted one is its entries
  one by one.
-/
namespace DoubleEntry.L3.Journal

open DoubleEntry.Core DoubleEntry.L1 DoubleEntry.L2

variable {H : Type} {P : Scale}

/-! ## Sites -/

/-- The positions of the postings on a key, in log order. -/
def sitesOf (entries : List (Entry H .balanced P)) (key : BalanceKey) : List Site :=
  entries.zipIdx.flatMap fun e => (e.1.postings.zipIdx.filter fun p => p.1.key = key).map fun p => ⟨e.2, p.2⟩

theorem sitesOf_concat (entries : List (Entry H .balanced P)) (entry : Entry H .balanced P) (key : BalanceKey) :
    sitesOf (entries ++ [entry]) key =
      sitesOf entries key ++ (entry.postings.zipIdx.filter fun p => p.1.key = key).map fun p => ⟨entries.length, p.2⟩ := by
  simp [sitesOf, List.zipIdx_append]

variable [Blake3 H]

/-- The posting sites are those of the entries, and a key without postings has none. -/
def Sited (j : Journal H P) : Prop := ∀ key,
  j.sites.get? key = if sitesOf j.entries key = [] then none else some (sitesOf j.entries key)

theorem Sited.getD {j : Journal H P} (h : j.Sited) (key : BalanceKey) :
    (j.sites.get? key).getD [] = sitesOf j.entries key := by
  rw [h key]
  split
  · simp [*]
  · rfl

theorem Sited.store {j : Journal H P} (h : j.Sited) (hlog : j.Logged) {entry : Entry H .balanced P}
    (hs : Short entry) (b : TrialBalance P) : (j.store entry b).Sited := by
  intro key
  have hmap : (entry.postings.zipIdx.filter fun p => p.1.key = key).map (fun p => siteOf j.entries.length p.2) =
      (entry.postings.zipIdx.filter fun p => p.1.key = key).map fun p => ⟨j.entries.length, p.2⟩ := by
    apply List.map_congr_left
    intro p hp
    obtain ⟨hlt, -⟩ := List.getElem?_eq_some_iff.1 (List.mem_zipIdx_iff_getElem?.1 (List.mem_filter.1 hp).1)
    have hshort : entry.postings.length ≤ 65536 := hs
    have hmin : min p.2 65535 = p.2 := by omega
    rw [siteOf, hmin]
  show (addSites j.sites j.log.accumulator.size entry.postings).get? key = if sitesOf (j.entries ++ [entry]) key = []
    then none else some (sitesOf (j.entries ++ [entry]) key)
  rw [get?_addSites, hlog.size, h.getD, hmap, sitesOf_concat]
  by_cases hnil : entry.postings.zipIdx.filter (fun p => p.1.key = key) = []
  · simp [hnil, h key]
  · simp [hnil]

/-! ## The checks -/

variable [DecidableEq H]

/-- mirrors src/journal.rs:815-825 -/
def verifyLog (j : Journal H P) : Bool :=
  if j.log.len ≠ j.entries.length then false
  else if !j.log.verifyIncrementalState then false
  else (MerkleLog.fromLeaves (j.entries.map (·.contentHash))).root = j.log.root

omit [DecidableEq H] in
/-- mirrors src/journal.rs:932-940 -/
def verifyBalances (j : Journal H P) : Except MoneyError Bool :=
  (TrialBalance.new.applyAll (postingsOf j.entries)).map fun recomputed => recomputed = j.balances

theorem Logged.verifyLog {j : Journal H P} (h : j.Logged) : j.verifyLog = true := by
  have hlen : j.log.len = j.entries.length := by rw [MerkleLog.len, h, List.length_map]
  have hroot : (MerkleLog.fromLeaves (j.entries.map (·.contentHash))).root = j.log.root := by
    rw [MerkleLog.root_eq, MerkleLog.root_eq, MerkleLog.leaves_fromLeaves, h]
  simp [Journal.verifyLog, hlen, hroot]

omit [DecidableEq H] in
theorem Posted.verifyBalances {j : Journal H P} (h : j.Posted) : j.verifyBalances = .ok true := by
  rw [Journal.verifyBalances, h.folded, Except.map, decide_eq_true rfl]

/-! ## The invariant -/

omit [DecidableEq H] in
/-- Everything derived from the entries is what the entries say. -/
structure Represents (j : Journal H P) : Prop where
  mapped : j.Mapped
  log : j.log = .fromLeaves (j.entries.map (·.contentHash))
  sites : j.Sited
  row : ∀ key, (j.balances.get key).isSome ↔ Touches (postingsOf j.entries) key
  balance : ∀ key, Balance.zero.addAll ((postingsOf j.entries).filter (·.key = key)) = .ok (j.balances.getOrZero key)

omit [DecidableEq H] in
/-- The rows are those of the fold over all postings. -/
theorem Posted.represents {j : Journal H P} (h : j.Posted) (hm : j.Mapped) (hs : j.Sited) : j.Represents where
  mapped := hm
  log := MerkleLog.ext_leaves (by rw [MerkleLog.leaves_fromLeaves]; exact h.logged)
  sites := hs
  row := (totals_of_applyAll h.folded).row
  balance key := (TrialBalance.get_of_applyAll h.folded key).1

/-- Operations on sealed entries. -/
def sealedOperations (ledger : LedgerId) : LTS (Journal H P) (Operation H P) :=
  (operations ledger).restrict fun j o => ∀ e ∈ j.offered o, FromSeal e

/-- What runs of them keep. -/
structure Kept (j : Journal H P) : Prop where
  posted : j.Posted
  mapped : j.Mapped
  sited : j.Sited
  fromSeal : ∀ e ∈ j.entries, FromSeal e

omit [DecidableEq H] in
theorem kept_new (ledger : LedgerId) : (new ledger : Journal H P).Kept where
  posted := posted_new ledger .permissive
  mapped := mapped_new ledger .permissive
  sited _ := rfl
  fromSeal _ he := by cases he

omit [DecidableEq H] in
theorem Kept.sameEntries {j j' : Journal H P} (h : j.Kept) (hs : SameEntries j j') : j'.Kept where
  posted := hs.posted h.posted
  mapped := h.mapped.sameEntries hs
  sited := by
    unfold Sited
    rw [hs.entries, hs.sites]
    exact h.sited
  fromSeal := by rw [hs.entries]; exact h.fromSeal

omit [DecidableEq H] in
theorem Kept.store {j : Journal H P} (h : j.Kept) {entry : Entry H .balanced P} {b : TrialBalance P}
    (hacc : Accepted j entry b) (hs : FromSeal entry) : (j.store entry b).Kept where
  posted := h.posted.store hacc hs.postable.2
  mapped := h.mapped.store hacc
  sited := h.sited.store h.posted.logged hs.postable.2 b
  fromSeal e he := by
    rcases List.mem_append.1 he with he | he
    · exact h.fromSeal e he
    · rw [List.mem_singleton.1 he]
      exact hs

theorem Kept.operate {j : Journal H P} (h : j.Kept) {o : Operation H P} (hs : ∀ e ∈ j.offered o, FromSeal e) :
    (j.operate o).Kept := by
  have hshort : ∀ e ∈ j.offered o, Short e := fun e he => (hs e he).postable.2
  rcases operate_short h.posted hshort with hsame | ⟨new, happ, hnew⟩
  · exact h.sameEntries hsame
  · exact happ.keeps (fun e he => hs e (hnew.subset he)) h fun _ _ _ hk hs hacc => hk.store hacc hs

theorem kept_of_reachable {ledger : LedgerId} {j : Journal H P} (hj : (sealedOperations ledger).Reachable j) :
    j.Kept := by
  refine LTS.Inductive.reachable (T := sealedOperations ledger) ⟨?_, ?_⟩ hj
  · intro j h
    obtain rfl : j = new ledger := h
    exact kept_new ledger
  · intro j o j' h st
    obtain ⟨rfl, hs⟩ := LTS.restrict_step.1 st
    exact h.operate hs

theorem kept_calls (ledger : LedgerId) : (calls ledger : LTS (Journal H P) (Call H P)).Stable Kept :=
  fun j k _ h st => st ▸ h.operate (o := .mutate (.call k)) (fromSeal_call j k)

/-- The calls of a journal seal what they record. -/
theorem kept_of_calls {ledger : LedgerId} {j : Journal H P} (hj : (calls ledger).Reachable j) : j.Kept := by
  refine LTS.Inductive.reachable (T := calls ledger) ⟨?_, kept_calls ledger⟩ hj
  rintro _ ⟨policy, rfl⟩
  exact (kept_new ledger).operate (o := .withPolicy policy) fun e he => (List.not_mem_nil he).elim

/-- **What is derived is what the entries say.** After any operations on sealed
entries, refused batches included. -/
theorem verified_of_reachable {ledger : LedgerId} {j : Journal H P} (hj : (sealedOperations ledger).Reachable j) :
    j.Represents ∧ j.verifyLog = true ∧ j.verifyBalances = .ok true := by
  have h := kept_of_reachable hj
  exact ⟨h.posted.represents h.mapped h.sited, h.posted.logged.verifyLog, h.posted.verifyBalances⟩

/-! ## A journal with the sale of March -/

theorem run_sealedCalls (ledger : LedgerId) (j : Journal H P) (ks : List (Call H P)) :
    (sealedOperations ledger).Run j (ks.map fun k => .mutate (.call k)) (j.afterAll ks) := by
  induction ks generalizing j with
  | nil => exact .nil j
  | cons k ks ih => exact .cons ⟨rfl, fromSeal_call j k⟩ (ih _)

def marchSold : Journal Preimage cents := (new books).afterAll (marchDefined ++ [.record saleOfMarch])

theorem reachable_marchSold : (sealedOperations books).Reachable marchSold :=
  ⟨_, _, rfl, run_sealedCalls books _ _⟩

set_option maxRecDepth 10000 in
/-- Not vacuous: the sale is on file. -/
theorem marchSold_verified : marchSold.entries = [saleOfMarch.withState .balanced] ∧ marchSold.Represents ∧
    marchSold.verifyLog = true ∧ marchSold.verifyBalances = .ok true :=
  ⟨by decide, verified_of_reachable reachable_marchSold⟩

/-! ## Batches -/

/-- Entries recorded one by one. -/
def recordAll (j : Journal H P) (entries : List (Entry H .balanced P)) :
    Except (JournalError H) (List (Recorded H) × Journal H P) :=
  entries.foldlM (fun st entry => (st.2.recordValidated entry).map fun r => (st.1 ++ [r.1], r.2)) ([], j)

theorem foldlM_recordValidated (entries : List (Entry H .balanced P)) (done : List (Recorded H)) (j : Journal H P) :
    entries.foldlM (fun st entry => (st.2.recordValidated entry).map fun r => (st.1 ++ [r.1], r.2)) (done, j) =
      (j.recordEach entries).1.map fun out => (done ++ out, (j.recordEach entries).2) := by
  induction entries generalizing done j with
  | nil => simp [recordEach, Except.map, pure, Except.pure]
  | cons entry entries ih =>
    rw [List.foldlM_cons]
    unfold recordEach
    cases hr : j.recordValidated entry with
    | error e => rfl
    | ok r =>
      obtain ⟨recorded, j'⟩ := r
      have hrest := ih (done ++ [recorded]) j'
      simp only [Except.map, bind, Except.bind] at hrest ⊢
      rw [hrest]
      cases (j'.recordEach entries).1 <;> simp

theorem recordAll_eq (j : Journal H P) (entries : List (Entry H .balanced P)) :
    j.recordAll entries = (j.recordEach entries).1.map fun out => (out, (j.recordEach entries).2) :=
  foldlM_recordValidated entries [] j

/-- A batch is accepted exactly when its entries are, one by one. -/
theorem recordBatch_eq_ok {j j' : Journal H P} {entries : List (Entry H .balanced P)} {out : List (Recorded H)} :
    j.recordBatch entries = (.ok out, j') ↔ j.recordAll entries = .ok (out, j') := by
  rw [recordAll_eq]
  unfold recordBatch
  cases hr : j.recordEach entries with
  | mk res k => cases res <;> simp [Except.map]

/-- **All of a batch or nothing.** -/
theorem recordBatch_atomic {ledger : LedgerId} {j j' : Journal H P} (hj : (sealedOperations ledger).Reachable j)
    {entries : List (Entry H .balanced P)} (hs : ∀ e ∈ entries, FromSeal e) :
    (∀ e, j.recordBatch entries = (.error e, j') → j' = j) ∧
    (∀ out, j.recordBatch entries = (.ok out, j') ↔ j.recordAll entries = .ok (out, j')) := by
  have hshort : ∀ e ∈ entries, Short e := fun e he => (hs e he).postable.2
  exact ⟨fun e hb => recordBatch_error_eq (kept_of_reachable hj).posted hshort hb, fun out => recordBatch_eq_ok⟩

/-- A second sale of March, and the key of the first one on another sale. -/
def conflictingSales : List (Entry Preimage .draft cents) := [sale ⟨32, by decide⟩ march.end, { saleOfMarch with bookingDate := march.start }]

set_option maxRecDepth 10000 in
theorem fromSeal_conflictingSales : ∀ e ∈ conflictingSales.map (·.withState .balanced), FromSeal e := by
  intro e he
  obtain ⟨draft, hd, rfl⟩ := List.mem_map.1 he
  refine ⟨draft, marchSold.context, ?_⟩
  rcases List.mem_pair.1 hd with rfl | rfl
  · exact toOption_eq_some.1 (by decide)
  · exact toOption_eq_some.1 (by decide)

set_option maxRecDepth 10000 in
theorem conflictingSales_refused :
    (marchSold.recordBatch (conflictingSales.map (·.withState .balanced))).1.toOption.isNone = true ∧
    (marchSold.recordBatch ((conflictingSales.take 1).map (·.withState .balanced))).1.toOption.isSome = true := by
  decide

/-- Not vacuous: both sales are refused together, and the second one is recorded alone. -/
theorem conflictingSales_atomic : (marchSold.recordBatch (conflictingSales.map (·.withState .balanced))).2 = marchSold ∧
    ∃ out j', marchSold.recordAll ((conflictingSales.take 1).map (·.withState .balanced)) = .ok (out, j') := by
  obtain ⟨hrefused, haccepted⟩ := conflictingSales_refused
  have hone : ∀ e ∈ (conflictingSales.take 1).map (·.withState .balanced), FromSeal e := fun e he =>
    fromSeal_conflictingSales e ((List.take_sublist 1 _).map _ |>.subset he)
  constructor
  · cases hb : marchSold.recordBatch (conflictingSales.map (·.withState .balanced)) with
    | mk res j' =>
      rw [hb] at hrefused
      cases res with
      | ok out => cases hrefused
      | error e => exact (recordBatch_atomic reachable_marchSold fromSeal_conflictingSales).1 e hb
  · cases hb : marchSold.recordBatch ((conflictingSales.take 1).map (·.withState .balanced)) with
    | mk res j' =>
      rw [hb] at haccepted
      cases res with
      | error e => cases haccepted
      | ok out => exact ⟨out, j', ((recordBatch_atomic reachable_marchSold hone).2 out).1 hb⟩

end DoubleEntry.L3.Journal
