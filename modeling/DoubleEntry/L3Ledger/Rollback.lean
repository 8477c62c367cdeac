import DoubleEntry.L3Ledger.Journal

/-!
# A refused batch leaves nothing behind

`record_batch` stores entries until one is refused, and then takes them back one
by one: the maps by removing what was inserted, the log by truncating it, the
balance of a touched key by folding the postings that remain.

**Assumptions.** None on the entries for the maps and the log. For the balances: the log and the
balances are those of the entries (`Posted`), which every call keeps while postings are few
enough for their sites (`Short`).

**Results.**
* `recordValidated_cases`, `record_cases`: everything that a successful call does.
* `undoLast_appends`, `rebuildBalance_restores`: both halves of `rollback_to`.
* `recordBatch_error`: the maps and the log are what they were, for any entries.
* `recordBatch_error_eq`: where positions of postings fit the `u16` of a site, a row of
  the balances is the fold of the postings on its key (`Posted`), and the whole journal is
  what it was.
* `recordBatch_posted`: batches, accepted or not, keep the balances those of the entries.
-/
namespace DoubleEntry.L3.Journal

open DoubleEntry.Core DoubleEntry.L1 DoubleEntry.L2

variable {H : Type} [Blake3 H] [DecidableEq H] {P : Scale}

/-! ## Entries stored one after another -/

/-- What a newly stored entry was checked for. -/
structure Accepted (j : Journal H P) (entry : Entry H .balanced P) (balances : TrialBalance P) : Prop where
  key : j.byKey.get? entry.idempotencyKey = none
  id : j.byId.get? entry.id = none
  reverses : ∀ original, entry.reverses = some original →
    j.reversedBy.get? original = none ∧ j.checkReversal entry original = .ok ()
  applied : j.balances.applyAll entry.postings = .ok balances
  limits : j.checkLimits entry balances = .ok ()

omit [DecidableEq H] in
theorem checkReversal_eq_ok {j : Journal H P} {entry : Entry H .balanced P} {original : EntryId}
    (h : j.checkReversal entry original = .ok ()) : j.reversedBy.get? original = none := by
  unfold checkReversal at h
  split at h
  · cases h
  · split at h
    · cases h
    · assumption

omit [DecidableEq H] in
theorem accept_eq_ok {j : Journal H P} {entry : Entry H .balanced P} {balances : TrialBalance P} :
    j.accept entry = .ok balances ↔ j.byId.get? entry.id = none ∧
      (∀ original, entry.reverses = some original → j.checkReversal entry original = .ok ()) ∧
      j.balances.applyAll entry.postings = .ok balances ∧ j.checkLimits entry balances = .ok () := by
  unfold accept
  by_cases hid : (j.byId.contains entry.id) = true
  · obtain ⟨i, hi⟩ := OrdMap.contains_iff.1 hid
    simp [hid, hi]
  · have hnone : j.byId.get? entry.id = none := by simpa [OrdMap.contains] using hid
    have hrest : ∀ x : TrialBalance P, ((j.balances.applyAll entry.postings).mapError JournalError.money >>= fun tb =>
        (j.checkLimits entry tb >>= fun _ => Except.ok tb)) = .ok x ↔
        j.balances.applyAll entry.postings = .ok x ∧ j.checkLimits entry x = .ok () := fun x => by
      simp only [bind_eq_ok, mapError_eq_ok]
      exact ⟨fun ⟨_, happ, _, hlim, htb⟩ => by cases htb; exact ⟨happ, hlim⟩, fun ⟨happ, hlim⟩ => ⟨x, happ, (), hlim, rfl⟩⟩
    rw [if_neg hid]
    cases ho : entry.reverses with
    | none =>
      simp only [hnone, reduceCtorEq, false_implies, implies_true, true_and]
      exact hrest balances
    | some original =>
      simp only [hnone, true_and, Option.some.injEq, forall_eq', ← hrest]
      cases j.checkReversal entry original with
      | error e => simp [bind, Except.bind]
      | ok u => simp [bind, Except.bind]

theorem replay_eq_none {j : Journal H P} {key : IdempotencyKey} {contentHash : H} :
    j.replay key contentHash = none ↔ j.byKey.get? key = none := by
  unfold replay
  cases j.byKey.get? key with
  | none => simp
  | some v =>
    obtain ⟨existing, index, stored⟩ := v
    simp only [reduceCtorEq, iff_false]
    split <;> simp

/-- Everything a successful `record_validated` does. -/
theorem recordValidated_cases {j j' : Journal H P} {entry : Entry H .balanced P} {recorded : Recorded H}
    (h : j.recordValidated entry = .ok (recorded, j')) :
    (j' = j ∧ ∃ id index, j.byKey.get? entry.idempotencyKey = some (id, index, entry.contentHash) ∧
      recorded = ⟨id, some index, entry.contentHash, false⟩) ∨
    ∃ balances, Accepted j entry balances ∧ j' = j.store entry balances ∧
      recorded = ⟨entry.id, some j.log.accumulator.size, entry.contentHash, true⟩ := by
  unfold recordValidated at h
  split at h
  · rename_i outcome hreplay
    cases outcome with
    | error e => cases h
    | ok r =>
      cases h
      refine .inl ⟨rfl, ?_⟩
      unfold replay at hreplay
      split at hreplay
      · cases hreplay
      · rename_i id index stored hget
        split at hreplay
        · rename_i hs
          cases hreplay
          subst hs
          exact ⟨id, index, hget, rfl⟩
        · cases hreplay
  · rename_i hreplay
    split at h
    · cases h
    · rename_i balances hacc
      cases h
      obtain ⟨hid, hrev, happ, hlim⟩ := accept_eq_ok.1 hacc
      exact .inr ⟨balances, ⟨replay_eq_none.1 hreplay, hid,
        fun original ho => ⟨checkReversal_eq_ok (hrev original ho), hrev original ho⟩, happ, hlim⟩, rfl, rfl⟩

/-- Everything a successful `record` does. -/
theorem record_cases {j j' : Journal H P} {draft : Entry H .draft P} {recorded : Recorded H}
    (h : j.record draft = .ok (recorded, j')) : j' = j ∨ ∃ entry balances, draft.seal j.context = .ok entry ∧
      Accepted j entry balances ∧ j' = j.store entry balances := by
  unfold record at h
  split at h
  · rename_i outcome _
    cases outcome with
    | error e => cases h
    | ok r => cases h; exact .inl rfl
  · split at h
    · cases h
    · rename_i entry hseal
      rcases recordValidated_cases h with ⟨h, -⟩ | ⟨balances, hacc, h, -⟩
      · exact .inl h
      · exact .inr ⟨entry, balances, hseal, hacc, h⟩

/-- `k` is `j` with entries stored on top of it. -/
inductive Appends (j : Journal H P) : List (Entry H .balanced P) → Journal H P → Prop
  | nil : Appends j [] j
  | snoc {new : List (Entry H .balanced P)} {k : Journal H P} {entry : Entry H .balanced P} {balances : TrialBalance P}
      (h : Appends j new k) (ok : Accepted k entry balances) : Appends j (new ++ [entry]) (k.store entry balances)

omit [DecidableEq H] in
theorem Appends.entries_eq {j k : Journal H P} {new : List (Entry H .balanced P)} (h : Appends j new k) :
    k.entries = j.entries ++ new := by
  induction h with
  | nil => rw [List.append_nil]
  | @snoc new k entry balances _ _ ih =>
    show k.entries ++ [entry] = _
    rw [ih, List.append_assoc]

omit [DecidableEq H] in
/-- Kept by storing an entry that was accepted. -/
theorem Appends.keeps {I : Journal H P → Prop} {ok : Entry H .balanced P → Prop} {j k : Journal H P}
    {new : List (Entry H .balanced P)} (h : Appends j new k) (hnew : ∀ e ∈ new, ok e) (hj : I j)
    (step : ∀ k e b, I k → ok e → Accepted k e b → I (k.store e b)) : I k := by
  induction h with
  | nil => exact hj
  | snoc _ hacc ih =>
    exact step _ _ _ (ih fun e he => hnew e (List.mem_append_left _ he)) (hnew _ (by simp)) hacc

omit [DecidableEq H] in
theorem Appends.keepsAll {I : Journal H P → Prop} {j k : Journal H P} {new : List (Entry H .balanced P)}
    (h : Appends j new k) (hj : I j) (step : ∀ k e b, I k → Accepted k e b → I (k.store e b)) : I k :=
  have hall : ∀ e ∈ new, (fun _ => True) e := fun _ _ => trivial
  h.keeps hall hj fun k e b hk _ hacc => step k e b hk hacc

theorem recordEach_appends (entries : List (Entry H .balanced P)) {j k : Journal H P}
    {new : List (Entry H .balanced P)} (h : Appends j new k) :
    ∃ more, Appends j (new ++ more) (k.recordEach entries).2 ∧ more.Sublist entries := by
  induction entries generalizing k new with
  | nil => exact ⟨[], by rwa [List.append_nil], .slnil⟩
  | cons entry entries ih =>
    unfold recordEach
    cases hr : k.recordValidated entry with
    | error e => exact ⟨[], by rwa [List.append_nil], List.nil_sublist _⟩
    | ok r =>
      obtain ⟨recorded, k'⟩ := r
      rcases recordValidated_cases hr with ⟨rfl, -⟩ | ⟨balances, hacc, rfl, -⟩
      · obtain ⟨more, hm, hs⟩ := ih h
        exact ⟨more, hm, hs.cons _⟩
      · obtain ⟨more, hm, hs⟩ := ih (h.snoc hacc)
        refine ⟨entry :: more, ?_, hs.cons_cons _⟩
        rwa [List.append_assoc] at hm

/-! ## Undoing -/

/-- The derived data that undoing one entry leaves for the end. -/
def patch (j : Journal H P) (log : MerkleLog H) (balances : TrialBalance P) (sites : OrdMap BalanceKey (List Site)) :
    Journal H P := { j with log := log, balances := balances, sites := sites }

omit [DecidableEq H] in
/-- Undoing the last stored entry gives the maps back. -/
theorem undoLast_store {k : Journal H P} {entry : Entry H .balanced P} {b : TrialBalance P} (hacc : Accepted k entry b)
    (log : MerkleLog H) (balances : TrialBalance P) (sites : OrdMap BalanceKey (List Site))
    (touched : OrdMap BalanceKey Unit) :
    undoLast ((k.store entry b).patch log balances sites, touched) =
      (k.patch log balances (entry.postings.foldl (dropSites k.entries.length) sites),
        entry.postings.foldl (fun touched posting => touched.insert posting.key ()) touched) := by
  have hlast : ((k.store entry b).patch log balances sites).entries.getLast? = some entry :=
    List.getLast?_append.trans rfl
  have hrev : entry.reverses.elim (k.store entry b).reversedBy (k.store entry b).reversedBy.erase = k.reversedBy := by
    cases ho : entry.reverses with
    | none => simp [store, ho]
    | some original => simp [store, ho, OrdMap.erase_insert (hacc.reverses original ho).1]
  unfold undoLast
  simp only [hlast]
  simp only [patch, hrev]
  simp [store, OrdMap.erase_insert hacc.id, OrdMap.erase_insert hacc.key]

omit [DecidableEq H] in
/-- Undoing every stored entry gives the maps back, whatever became of the rest. -/
theorem undoLast_appends {j k : Journal H P} {new : List (Entry H .balanced P)} (h : Appends j new k)
    (log : MerkleLog H) (balances : TrialBalance P) (sites : OrdMap BalanceKey (List Site))
    (touched : OrdMap BalanceKey Unit) : ∃ sites' touched',
      undoLast^[new.length] (k.patch log balances sites, touched) = (j.patch log balances sites', touched') := by
  induction h generalizing sites touched with
  | nil => exact ⟨sites, touched, rfl⟩
  | snoc _ hacc ih =>
    rw [List.length_append, List.length_singleton, Function.iterate_succ_apply, undoLast_store hacc]
    exact ih _ _

omit [DecidableEq H] in
theorem rebuildBalance_patch (keys : List BalanceKey) (j : Journal H P) (log : MerkleLog H)
    (balances : TrialBalance P) (sites : OrdMap BalanceKey (List Site)) :
    ∃ balances' sites', keys.foldl rebuildBalance (j.patch log balances sites) = j.patch log balances' sites' := by
  induction keys generalizing balances sites with
  | nil => exact ⟨balances, sites, rfl⟩
  | cons key keys ih =>
    rw [List.foldl_cons, rebuildBalance]
    split
    · exact ih _ _
    · exact ih _ _

/-- The log holds the content hashes of the entries. -/
def Logged (j : Journal H P) : Prop := j.log.leaves = j.entries.map (·.contentHash)

omit [DecidableEq H] in
theorem Logged.size {j : Journal H P} (h : j.Logged) : j.log.accumulator.size = j.entries.length := by
  rw [j.log.covers.size, h, List.length_map]

omit [DecidableEq H] in
theorem Logged.store {j : Journal H P} (h : j.Logged) (entry : Entry H .balanced P) (balances : TrialBalance P) :
    (j.store entry balances).Logged := by
  show j.log.leaves ++ [entry.contentHash] = (j.entries ++ [entry]).map (·.contentHash)
  rw [h, List.map_append]
  rfl

omit [DecidableEq H] in
theorem Appends.logged {j k : Journal H P} {new : List (Entry H .balanced P)} (h : Appends j new k) (hj : j.Logged) :
    k.Logged := h.keepsAll hj fun _ e b hk _ => hk.store e b

omit [DecidableEq H] in
theorem Appends.truncate_log {j k : Journal H P} {new : List (Entry H .balanced P)} (h : Appends j new k)
    (hj : j.Logged) : k.log.truncate j.entries.length = j.log := by
  apply MerkleLog.ext_leaves
  rw [MerkleLog.leaves_truncate, h.logged hj, h.entries_eq, hj, ← List.map_take, List.take_left]

omit [DecidableEq H] in
theorem Appends.rollback_patch {j k : Journal H P} {new : List (Entry H .balanced P)} (h : Appends j new k)
    (hj : j.Logged) : ∃ balances sites, k.rollbackTo j.entries.length = j.patch j.log balances sites := by
  have hn : k.entries.length - j.entries.length = new.length := by rw [h.entries_eq, List.length_append]; omega
  obtain ⟨sites, touched, hu⟩ := undoLast_appends h k.log k.balances k.sites .empty
  have hu : undoLast^[new.length] (k, .empty) = (j.patch k.log k.balances sites, touched) := hu
  have hlog : (j.patch k.log k.balances sites).truncateLog = j.patch j.log k.balances sites := by
    simp only [truncateLog, patch, h.truncate_log hj]
  unfold rollbackTo
  simp only [hn, hu, hlog]
  exact rebuildBalance_patch _ _ _ _ _

/-- A refused batch gives the maps and the log back, for any entries. -/
theorem recordBatch_error {j j' : Journal H P} {entries : List (Entry H .balanced P)} {e : JournalError H}
    (hj : j.Logged) (h : j.recordBatch entries = (.error e, j')) : ∃ balances sites, j' = j.patch j.log balances sites := by
  obtain ⟨new, happ, -⟩ := recordEach_appends entries (.nil : Appends j [] j)
  unfold recordBatch at h
  split at h
  · cases h
  · rename_i e' k hr
    cases h
    rw [hr] at happ
    exact happ.rollback_patch hj

/-- An accepted batch stores entries one after another. -/
theorem recordBatch_ok {j j' : Journal H P} {entries : List (Entry H .balanced P)} {out : List (Recorded H)}
    (h : j.recordBatch entries = (.ok out, j')) : ∃ new, Appends j new j' ∧ new.Sublist entries := by
  obtain ⟨new, happ, hs⟩ := recordEach_appends entries (.nil : Appends j [] j)
  unfold recordBatch at h
  split at h
  · rename_i out' k hr
    cases h
    rw [hr] at happ
    exact ⟨new, happ, hs⟩
  · cases h

/-! ## Posting sites -/

/-- The site of the posting at a position. -/
def siteOf (index position : Nat) : Site := ⟨index, min position 65535⟩

/-- Storing an entry adds its postings on a key, in order, to the sites of the key. -/
theorem get?_addSites {index : Nat} {postings : List (Posting P)} {sites : OrdMap BalanceKey (List Site)}
    {key : BalanceKey} : (addSites sites index postings).get? key =
      if postings.zipIdx.filter (fun e => e.1.key = key) = [] then sites.get? key
      else some ((sites.get? key).getD [] ++ (postings.zipIdx.filter fun e => e.1.key = key).map fun e => siteOf index e.2) := by
  unfold addSites
  generalize postings.zipIdx = l
  induction l generalizing sites with
  | nil => simp
  | cons e l ih =>
    rw [List.foldl_cons, ih]
    by_cases hk : e.1.key = key
    · subst hk
      by_cases hl : l.filter (fun e' => e'.1.key = e.1.key) = []
      · simp [hl, siteOf]
      · simp [hl, siteOf]
    · have hne : (e :: l).filter (fun e => e.1.key = key) = l.filter fun e => e.1.key = key :=
        List.filter_cons_of_neg (by simpa using hk)
      simp only [hne, OrdMap.get?_insert_ne hk]

theorem get?_dropSites {index : Nat} {postings : List (Posting P)} {sites : OrdMap BalanceKey (List Site)}
    {key : BalanceKey} : (Touches postings key → (postings.foldl (dropSites index) sites).get? key =
        (sites.get? key).map fun l => l.filter fun site => site.index ≠ index) ∧
      (¬ Touches postings key → (postings.foldl (dropSites index) sites).get? key = sites.get? key) := by
  have hone : ∀ (s : OrdMap BalanceKey (List Site)) (p : Posting P), (dropSites index s p).get? key =
      if p.key = key then (s.get? key).map fun l => l.filter fun site => site.index ≠ index else s.get? key := by
    intro s p
    unfold dropSites
    split
    · rename_i l hl
      by_cases hk : p.key = key
      · subst hk
        simp [hl]
      · rw [if_neg hk, OrdMap.get?_insert_ne hk]
    · rename_i hl
      by_cases hk : p.key = key
      · subst hk
        simp [hl]
      · rw [if_neg hk]
  induction postings generalizing sites with
  | nil => exact ⟨fun ⟨_, hp, _⟩ => absurd hp List.not_mem_nil, fun _ => rfl⟩
  | cons p ps ih =>
    have hrest := @ih (dropSites index sites p)
    rw [hone] at hrest
    obtain ⟨htouch, hkeep⟩ := hrest
    rw [List.foldl_cons]
    by_cases hk : p.key = key
    · rw [if_pos hk] at htouch hkeep
      refine ⟨fun _ => ?_, fun hn => absurd ⟨p, List.mem_cons_self, hk⟩ hn⟩
      by_cases ht : Touches ps key
      · rw [htouch ht]
        cases sites.get? key <;> simp
      · exact hkeep ht
    · rw [if_neg hk] at htouch hkeep
      refine ⟨fun ⟨q, hq, e⟩ => htouch ⟨q, ?_, e⟩, fun hn => hkeep fun ⟨q, hq, e⟩ => hn ⟨q, List.mem_cons_of_mem _ hq, e⟩⟩
      exact (List.mem_cons.1 hq).resolve_left fun he => hk (he ▸ e)

theorem get?_touch {postings : List (Posting P)} {touched : OrdMap BalanceKey Unit} {key : BalanceKey} :
    (postings.foldl (fun touched posting => touched.insert posting.key ()) touched).get? key = none ↔
      ¬ Touches postings key ∧ touched.get? key = none := by
  induction postings generalizing touched with
  | nil => simp [Touches]
  | cons p ps ih =>
    rw [List.foldl_cons, ih, OrdMap.get?_insert]
    by_cases hk : p.key = key
    · simp [hk, Touches]
    · simp [hk, Touches]

/-! ## Rows of the balances -/

/-- The log and the balances are those of the entries, and the row of a key is the
fold of the postings on its sites. -/
structure Posted (j : Journal H P) : Prop where
  logged : j.Logged
  folded : TrialBalance.new.applyAll (postingsOf j.entries) = .ok j.balances
  sites : ∀ key l, j.sites.get? key = some l → l ≠ [] ∧ ∀ s ∈ l, s.index < j.entries.length
  row : ∀ key, (j.sites.get? key).isSome = (j.balances.get key).isSome
  fold : ∀ key, Balance.zero.addAll (((j.sites.get? key).getD []).filterMap j.resolve) = .ok (j.balances.getOrZero key)

/-- Its positions fit the `u16` of a site. -/
def Short (e : Entry H .balanced P) : Prop := e.postings.length ≤ 65536

omit [DecidableEq H] in
theorem posted_new (ledger : LedgerId) (policy : LedgerPolicy) :
    ((new ledger).withPolicy policy : Journal H P).Posted where
  logged := rfl
  folded := rfl
  sites _ _ h := by cases h
  row _ := rfl
  fold _ := rfl

omit [DecidableEq H] in
theorem resolve_store {j : Journal H P} {entry : Entry H .balanced P} {b : TrialBalance P} {s : Site}
    (h : s.index < j.entries.length) : (j.store entry b).resolve s = j.resolve s := by
  unfold resolve «at» store
  rw [List.getElem?_append_left h]

omit [DecidableEq H] in
/-- The sites of a new entry are those of its postings. -/
theorem resolve_siteOf {j : Journal H P} {entry : Entry H .balanced P} {b : TrialBalance P} (hs : Short entry)
    {e : Posting P × Nat} (he : e ∈ entry.postings.zipIdx) :
    (j.store entry b).resolve (siteOf j.entries.length e.2) = some e.1 := by
  have hget := List.mem_zipIdx_iff_getElem?.1 he
  obtain ⟨hlt, -⟩ := List.getElem?_eq_some_iff.1 hget
  have hshort : entry.postings.length ≤ 65536 := hs
  have hpos : (siteOf j.entries.length e.2).posting = e.2 := by unfold siteOf; simp only; omega
  have hat : (j.store entry b).at j.entries.length = some entry := by simp [«at», store]
  unfold resolve
  rw [show (siteOf j.entries.length e.2).index = j.entries.length from rfl, hat, Option.bind_some, hpos]
  exact hget

omit [DecidableEq H] in
theorem map_fst_zipIdx_filter (postings : List (Posting P)) (key : BalanceKey) :
    (postings.zipIdx.filter fun e => e.1.key = key).map Prod.fst = postings.filter (·.key = key) := by
  conv_rhs => rw [← List.zipIdx_map_fst 0 postings, List.filter_map]
  rfl

omit [DecidableEq H] in
theorem filter_zipIdx_eq_nil {postings : List (Posting P)} {key : BalanceKey} :
    postings.zipIdx.filter (fun e => e.1.key = key) = [] ↔ ¬ Touches postings key := by
  rw [← List.map_eq_nil_iff (f := Prod.fst), map_fst_zipIdx_filter, List.filter_eq_nil_iff]
  simp [Touches]

omit [DecidableEq H] in
theorem Posted.store {j : Journal H P} (h : j.Posted) {entry : Entry H .balanced P} {b : TrialBalance P}
    (hacc : Accepted j entry b) (hshort : Short entry) : (j.store entry b).Posted where
  logged := h.logged.store entry b
  folded := by
    show TrialBalance.new.applyAll (postingsOf (j.entries ++ [entry])) = .ok b
    rw [postingsOf, List.flatMap_append, List.flatMap_singleton, TrialBalance.applyAll_append]
    exact bind_eq_ok.2 ⟨_, h.folded, hacc.applied⟩
  sites key l hl := by
    have hlen : (j.store entry b).entries.length = j.entries.length + 1 := by simp [Journal.store]
    have hl : (addSites j.sites j.log.accumulator.size entry.postings).get? key = some l := hl
    rw [get?_addSites, h.logged.size] at hl
    split at hl
    · obtain ⟨hne, hlt⟩ := h.sites key l hl
      exact ⟨hne, fun s hs => by have := hlt s hs; omega⟩
    · rename_i hne
      cases hl
      refine ⟨by simpa using fun _ => hne, fun s hs => ?_⟩
      rw [hlen]
      rcases List.mem_append.1 hs with hs | hs
      · cases hg : j.sites.get? key with
        | none => rw [hg] at hs; cases hs
        | some l =>
          rw [hg] at hs
          have := (h.sites key l hg).2 s hs
          omega
      · obtain ⟨e, -, rfl⟩ := List.mem_map.1 hs
        exact Nat.lt_succ_self _
  row key := by
    show ((addSites j.sites j.log.accumulator.size entry.postings).get? key).isSome = (b.get key).isSome
    obtain ⟨-, htouch, hkeep⟩ := TrialBalance.get_of_applyAll hacc.applied key
    rw [get?_addSites]
    by_cases ht : Touches entry.postings key
    · rw [if_neg (by rw [filter_zipIdx_eq_nil]; exact fun hn => hn ht), htouch ht]
      rfl
    · rw [if_pos (filter_zipIdx_eq_nil.2 ht), hkeep ht, h.row]
  fold key := by
    show Balance.zero.addAll ((((addSites j.sites j.log.accumulator.size entry.postings).get? key).getD []).filterMap
      (j.store entry b).resolve) = .ok (b.getOrZero key)
    have hold : ((j.sites.get? key).getD []).filterMap (j.store entry b).resolve =
        ((j.sites.get? key).getD []).filterMap j.resolve := by
      refine List.filterMap_congr fun s hs => resolve_store ?_
      cases hg : j.sites.get? key with
      | none => rw [hg] at hs; cases hs
      | some l =>
        rw [hg] at hs
        exact (h.sites key l hg).2 s hs
    have hnew : ((entry.postings.zipIdx.filter fun e => e.1.key = key).map fun e => siteOf j.entries.length e.2).filterMap
        (j.store entry b).resolve = entry.postings.filter (·.key = key) := by
      rw [List.filterMap_map, ← map_fst_zipIdx_filter, ← List.filterMap_eq_map]
      exact List.filterMap_congr fun e he => resolve_siteOf hshort (List.mem_filter.1 he).1
    obtain ⟨hadd, -, hkeep⟩ := TrialBalance.get_of_applyAll hacc.applied key
    have hall : Balance.zero.addAll (((j.sites.get? key).getD []).filterMap j.resolve ++
        entry.postings.filter (·.key = key)) = .ok (b.getOrZero key) := by
      rw [Balance.addAll_append]
      exact bind_eq_ok.2 ⟨_, h.fold key, hadd⟩
    rw [get?_addSites, h.logged.size]
    split
    · rename_i hnil
      rw [hold]
      rw [← map_fst_zipIdx_filter, hnil, List.map_nil, List.append_nil] at hall
      exact hall
    · rw [Option.getD_some, List.filterMap_append, hold, hnew]
      exact hall

/-! ## Undoing, key by key -/

/-- What is left of `j`'s sites and balances while keys are still to be rebuilt. -/
structure Restores (j : Journal H P) (balances : TrialBalance P) (sites : OrdMap BalanceKey (List Site))
    (todo : BalanceKey → Prop) : Prop where
  kept : ∀ key, (sites.get? key).getD [] = (j.sites.get? key).getD []
  done : ∀ key, ¬ todo key → sites.get? key = j.sites.get? key ∧ balances.get key = j.balances.get key

omit [DecidableEq H] in
/-- Undoing one entry, where what comes after it is undone. -/
theorem Restores.undo {k : Journal H P} {entry : Entry H .balanced P} {b balances : TrialBalance P}
    {sites : OrdMap BalanceKey (List Site)} {todo : BalanceKey → Prop} (hk : k.Posted) (hacc : Accepted k entry b)
    (h : Restores (k.store entry b) balances sites todo) :
    Restores k balances (entry.postings.foldl (dropSites k.entries.length) sites)
      fun key => Touches entry.postings key ∨ todo key where
  kept key := by
    have hsites : (sites.get? key).getD [] =
        ((addSites k.sites k.log.accumulator.size entry.postings).get? key).getD [] := h.kept key
    rw [get?_addSites, hk.logged.size] at hsites
    obtain ⟨hdrop, hkeep⟩ := @get?_dropSites _ k.entries.length entry.postings sites key
    by_cases ht : Touches entry.postings key
    · rw [if_neg (by rw [filter_zipIdx_eq_nil]; exact fun hn => hn ht), Option.getD_some] at hsites
      have hmap : ∀ o : Option (List Site), (o.map fun l => l.filter fun site => site.index ≠ k.entries.length).getD [] =
          (o.getD []).filter fun site => site.index ≠ k.entries.length := fun o => by cases o <;> rfl
      rw [hdrop ht, hmap, hsites, List.filter_append]
      have hadded : (((entry.postings.zipIdx.filter fun e => e.1.key = key).map fun e =>
          siteOf k.entries.length e.2).filter fun site => site.index ≠ k.entries.length) = [] := by
        refine List.filter_eq_nil_iff.2 fun s hs => ?_
        obtain ⟨e, -, rfl⟩ := List.mem_map.1 hs
        simp [siteOf]
      have hkept : ((k.sites.get? key).getD []).filter (fun site => site.index ≠ k.entries.length) =
          (k.sites.get? key).getD [] := by
        refine List.filter_eq_self.2 fun s hs => ?_
        cases hg : k.sites.get? key with
        | none => rw [hg] at hs; cases hs
        | some l =>
          rw [hg] at hs
          have := (hk.sites key l hg).2 s hs
          simp only [ne_eq, decide_not, Bool.not_eq_true', decide_eq_false_iff_not]
          omega
      rw [hadded, hkept, List.append_nil]
    · rw [if_pos (filter_zipIdx_eq_nil.2 ht)] at hsites
      rw [hkeep ht, hsites]
  done key hn := by
    obtain ⟨hs, hb⟩ := h.done key fun ht => hn (.inr ht)
    have ht : ¬ Touches entry.postings key := fun ht => hn (.inl ht)
    have hs : sites.get? key = (addSites k.sites k.log.accumulator.size entry.postings).get? key := hs
    rw [get?_addSites, if_pos (filter_zipIdx_eq_nil.2 ht)] at hs
    refine ⟨(get?_dropSites.2 ht).trans hs, hb.trans ?_⟩
    exact (TrialBalance.get_of_applyAll hacc.applied key).2.2 ht

omit [DecidableEq H] in
/-- Undoing every stored entry leaves the touched keys to be rebuilt. -/
theorem undoLast_restores {j k : Journal H P} {new : List (Entry H .balanced P)} (h : Appends j new k) (hj : j.Posted)
    (hnew : ∀ e ∈ new, Short e) (log : MerkleLog H) {balances : TrialBalance P}
    {sites : OrdMap BalanceKey (List Site)} {touched : OrdMap BalanceKey Unit}
    (hr : Restores k balances sites fun key => (touched.get? key).isSome) : ∃ sites' touched',
      undoLast^[new.length] (k.patch log balances sites, touched) = (j.patch log balances sites', touched') ∧
      Restores j balances sites' fun key => (touched'.get? key).isSome := by
  induction h generalizing sites touched with
  | nil => exact ⟨sites, touched, rfl, hr⟩
  | @snoc new k entry b happ hacc ih =>
    have hshort : ∀ e ∈ new, Short e := fun e he => hnew e (List.mem_append_left _ he)
    have hk : k.Posted := happ.keeps hshort hj fun _ _ _ hk hs hacc => hk.store hacc hs
    rw [List.length_append, List.length_singleton, Function.iterate_succ_apply, undoLast_store hacc]
    refine ih hshort ?_
    have hundo := hr.undo hk hacc
    refine ⟨hundo.kept, fun key hn => hundo.done key ?_⟩
    rw [Bool.not_eq_true, Option.isSome_eq_false_iff, Option.isNone_iff_eq_none, get?_touch] at hn
    simp [hn.1, hn.2]

omit [DecidableEq H] in
theorem Restores.rebuild {j : Journal H P} {balances : TrialBalance P} {sites : OrdMap BalanceKey (List Site)}
    {key : BalanceKey} {keys : List BalanceKey} (hj : j.Posted) (h : Restores j balances sites (· ∈ key :: keys))
    (log : MerkleLog H) : ∃ balances' sites',
      (j.patch log balances sites).rebuildBalance key = j.patch log balances' sites' ∧
      Restores j balances' sites' (· ∈ keys) := by
  have hfold : (((sites.get? key).getD []).filterMap (j.patch log balances sites).resolve).foldlM
      (fun b p => b.add p.direction p.amount) Balance.zero = .ok (j.balances.getOrZero key) := by
    rw [h.kept]
    exact hj.fold key
  have hother : ∀ key', key' ∉ keys → key ≠ key' → key' ∉ key :: keys := fun key' hn hne hm =>
    (List.mem_cons.1 hm).elim (fun e => hne e.symm) hn
  cases hg : j.sites.get? key with
  | none =>
    have hempty : (sites.get? key).getD [] = [] := by rw [h.kept, hg]; rfl
    have hnone : j.balances.get key = none := by
      have := hj.row key
      rw [hg] at this
      simpa using this.symm
    refine ⟨⟨balances.entries.erase key⟩, sites.erase key, ?_, fun key' => ?_, fun key' hn => ?_⟩
    · unfold rebuildBalance
      rw [if_pos (by rw [List.isEmpty_iff]; exact hempty)]
      rfl
    · rw [OrdMap.get?_erase]
      by_cases hk : key = key'
      · subst hk
        rw [if_pos rfl, hg]
      · rw [if_neg hk, h.kept]
    · by_cases hk : key = key'
      · subst hk
        exact ⟨by rw [OrdMap.get?_erase, if_pos rfl, hg], by rw [hnone]; exact OrdMap.get?_erase.trans (if_pos rfl)⟩
      · obtain ⟨hs, hb⟩ := h.done key' (hother key' hn hk)
        exact ⟨by rw [OrdMap.get?_erase, if_neg hk, hs], (OrdMap.get?_erase.trans (if_neg hk)).trans hb⟩
  | some l =>
    obtain ⟨hne, -⟩ := hj.sites key l hg
    have hsites : (sites.get? key).getD [] = l := by rw [h.kept, hg]; rfl
    have hsome : sites.get? key = some l := by
      cases hs : sites.get? key with
      | none => rw [hs] at hsites; exact absurd hsites.symm hne
      | some l' => rw [hs] at hsites; rw [show l' = l from hsites]
    obtain ⟨b, hb⟩ := Option.isSome_iff_exists.1 ((hj.row key).symm.trans (by rw [hg]; rfl))
    refine ⟨⟨balances.entries.insert key (j.balances.getOrZero key)⟩, sites, ?_, h.kept, fun key' hn => ?_⟩
    · unfold rebuildBalance
      have hfold' : (((((j.patch log balances sites).sites.get? key).getD []).filterMap
        (j.patch log balances sites).resolve).foldlM (fun b p => b.add p.direction p.amount) Balance.zero) =
          .ok (j.balances.getOrZero key) := hfold
      rw [if_neg (by rw [List.isEmpty_iff]; exact fun e => hne (hsites.symm.trans e))]
      simp only [hfold']
      rfl
    · by_cases hk : key = key'
      · subst hk
        refine ⟨by rw [hsome, hg], OrdMap.get?_insert_self.trans ?_⟩
        rw [TrialBalance.getOrZero, hb, Option.getD_some]
      · obtain ⟨hs, hb'⟩ := h.done key' (hother key' hn hk)
        exact ⟨hs, (OrdMap.get?_insert_ne hk).trans hb'⟩

omit [DecidableEq H] in
/-- Rebuilding every touched key gives `j` back. -/
theorem rebuildBalance_restores {keys : List BalanceKey} {j : Journal H P} {balances : TrialBalance P}
    {sites : OrdMap BalanceKey (List Site)} (hj : j.Posted) (h : Restores j balances sites (· ∈ keys)) :
    keys.foldl rebuildBalance (j.patch j.log balances sites) = j := by
  induction keys generalizing balances sites with
  | nil =>
    obtain rfl : sites = j.sites := OrdMap.ext_get? fun key => (h.done key List.not_mem_nil).1
    obtain rfl : balances = j.balances := TrialBalance.ext_get fun key => (h.done key List.not_mem_nil).2
    rfl
  | cons key keys ih =>
    obtain ⟨balances', sites', he, hr⟩ := h.rebuild hj j.log
    rw [List.foldl_cons, he]
    exact ih hr

omit [DecidableEq H] in
theorem Appends.rollback_eq {j k : Journal H P} {new : List (Entry H .balanced P)} (h : Appends j new k) (hj : j.Posted)
    (hnew : ∀ e ∈ new, Short e) : k.rollbackTo j.entries.length = j := by
  have hn : k.entries.length - j.entries.length = new.length := by rw [h.entries_eq, List.length_append]; omega
  have hself : Restores k k.balances k.sites fun key => ((.empty : OrdMap BalanceKey Unit).get? key).isSome :=
    ⟨fun _ => rfl, fun _ _ => ⟨rfl, rfl⟩⟩
  obtain ⟨sites, touched, hu, hr⟩ := undoLast_restores h hj hnew k.log hself
  have hu : undoLast^[new.length] (k, .empty) = (j.patch k.log k.balances sites, touched) := hu
  have hlog : (j.patch k.log k.balances sites).truncateLog = j.patch j.log k.balances sites := by
    simp only [truncateLog, patch, h.truncate_log hj.logged]
  unfold rollbackTo
  simp only [hn, hu, hlog]
  refine rebuildBalance_restores hj ⟨hr.kept, fun key hk => hr.done key ?_⟩
  rwa [OrdMap.mem_keys] at hk

/-- **A refused batch leaves the journal as it was.** -/
theorem recordBatch_error_eq {j j' : Journal H P} {entries : List (Entry H .balanced P)} {e : JournalError H}
    (hj : j.Posted) (hshort : ∀ e ∈ entries, Short e) (h : j.recordBatch entries = (.error e, j')) : j' = j := by
  obtain ⟨new, happ, hs⟩ := recordEach_appends entries (.nil : Appends j [] j)
  unfold recordBatch at h
  split at h
  · cases h
  · rename_i e' k hr
    cases h
    rw [hr] at happ
    exact happ.rollback_eq hj fun e he => hshort e (hs.subset he)

/-- Batches keep the balances those of the entries. -/
theorem recordBatch_posted {j : Journal H P} {entries : List (Entry H .balanced P)} (hj : j.Posted)
    (hshort : ∀ e ∈ entries, Short e) : (j.recordBatch entries).2.Posted := by
  cases hb : j.recordBatch entries with
  | mk out j' =>
    cases out with
    | error e => rwa [recordBatch_error_eq hj hshort hb]
    | ok out =>
      obtain ⟨new, happ, hs⟩ := recordBatch_ok hb
      exact happ.keeps (fun e he => hshort e (hs.subset he)) hj fun _ _ _ hk hs hacc => hk.store hacc hs

end DoubleEntry.L3.Journal
