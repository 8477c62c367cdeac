import DoubleEntry.L3Ledger.JournalRun
import DoubleEntry.L3Ledger.Rollback

/-!
# Runs with batches

The calls of `Call`, and entries that were validated before: one at a time
(`record_validated`) or in a batch. Such an entry may have been sealed against any
context. A step leaves the entries and what is derived from them alone, or stores
entries one after another (`mutate_posted`, `mutate_logged`).

`mutations` runs these calls on a new journal. `operations` also has the writes through
`accounts_mut` and `calendar_mut`, which may leave any registry and any calendar, and
`with_policy`.

**Results.**
* `mutate_cases`, `operate_cases`: a step keeps the entries, stores submitted ones, or is a
  refused batch.
* `mutate_entries`: the entries of the log stay, in their order.
* `operate_short`: a refused batch keeps everything, where positions fit their sites.
-/
namespace DoubleEntry.L3.Journal

open DoubleEntry.Core DoubleEntry.L1 DoubleEntry.L2

variable {H : Type} [Blake3 H] [DecidableEq H] {P : Scale}

inductive Mutation (H : Type) (P : Scale)
  | call (k : Call H P)
  | recordValidated (entry : Entry H .balanced P)
  | recordBatch (entries : List (Entry H .balanced P))

/-- The journal after it. -/
def mutate (j : Journal H P) : Mutation H P → Journal H P
  | .call k => j.after k
  | .recordValidated entry => keep ((j.recordValidated entry).map Prod.snd) j
  | .recordBatch entries => (j.recordBatch entries).2

/-- The entries it submits: a draft as its validation returns it. -/
def submitted (j : Journal H P) : Mutation H P → List (Entry H .balanced P)
  | .call (.record draft) => (draft.seal j.context).toOption.toList
  | .call _ => []
  | .recordValidated entry => [entry]
  | .recordBatch entries => entries

/-- On a new journal of `ledger`, under any policy. -/
def mutations (ledger : LedgerId) : LTS (Journal H P) (Mutation H P) where
  init j := ∃ policy, j = (new ledger).withPolicy policy
  step j m j' := j' = j.mutate m

/-- The journal after a list of mutations. -/
def mutateAll (j : Journal H P) (ms : List (Mutation H P)) : Journal H P := ms.foldl mutate j

theorem run_mutateAll (ledger : LedgerId) (j : Journal H P) (ms : List (Mutation H P)) :
    (mutations ledger).Run j ms (j.mutateAll ms) := by
  induction ms generalizing j with
  | nil => exact .nil j
  | cons m ms ih => exact .cons rfl (ih _)

/-! ## What one step does to the entries -/

/-- The entries and what is derived from them. -/
structure SameEntries (j j' : Journal H P) : Prop where
  entries : j'.entries = j.entries
  log : j'.log = j.log
  byId : j'.byId = j.byId
  byKey : j'.byKey = j.byKey
  reversedBy : j'.reversedBy = j.reversedBy
  balances : j'.balances = j.balances
  sites : j'.sites = j.sites

omit [DecidableEq H] in
theorem SameEntries.refl (j : Journal H P) : SameEntries j j := ⟨rfl, rfl, rfl, rfl, rfl, rfl, rfl⟩

omit [DecidableEq H] in
theorem SameEntries.logged {j j' : Journal H P} (h : SameEntries j j') (hj : j.Logged) : j'.Logged := by
  unfold Logged
  rw [h.log, h.entries]
  exact hj

omit [DecidableEq H] in
theorem SameEntries.posted {j j' : Journal H P} (h : SameEntries j j') (hj : j.Posted) : j'.Posted where
  logged := h.logged hj.logged
  folded := by rw [h.entries, h.balances]; exact hj.folded
  sites := by rw [h.sites, h.entries]; exact hj.sites
  row := by rw [h.sites, h.balances]; exact hj.row
  fold := by
    have hresolve : j'.resolve = j.resolve := by
      funext s
      simp only [resolve, «at», h.entries]
    rw [h.sites, h.balances, hresolve]
    exact hj.fold

theorem after_sameEntries {j : Journal H P} {k : Call H P} (hk : ∀ draft, k ≠ .record draft) :
    SameEntries j (j.after k) := by
  have h := j.after_effect k
  generalize j.after k = j' at h
  cases h with
  | data => exact ⟨rfl, rfl, rfl, rfl, rfl, rfl, rfl⟩
  | recorded => exact absurd rfl (hk _)
  | defined => exact ⟨rfl, rfl, rfl, rfl, rfl, rfl, rfl⟩
  | moved => exact ⟨rfl, rfl, rfl, rfl, rfl, rfl, rfl⟩
  | sealed => exact ⟨rfl, rfl, rfl, rfl, rfl, rfl, rfl⟩

/-- A validated entry is stored, or changes nothing. -/
theorem mutate_recordValidated (j : Journal H P) (entry : Entry H .balanced P) : j.mutate (.recordValidated entry) = j ∨
    ∃ balances, Accepted j entry balances ∧ j.mutate (.recordValidated entry) = j.store entry balances := by
  rcases keep_cases ((j.recordValidated entry).map Prod.snd) j with e | e
  · exact .inl e
  · obtain ⟨⟨recorded, j'⟩, hr, he⟩ := map_eq_ok.1 e
    rw [show j.mutate (.recordValidated entry) = j' from he.symm]
    rcases recordValidated_cases hr with ⟨rfl, -⟩ | ⟨balances, hacc, rfl, -⟩
    · exact .inl rfl
    · exact .inr ⟨balances, hacc, rfl⟩

/-- A step keeps the entries, stores submitted ones, or is a refused batch. -/
theorem mutate_cases (j : Journal H P) (m : Mutation H P) : SameEntries j (j.mutate m) ∨
    (∃ new, Appends j new (j.mutate m) ∧ new.Sublist (j.submitted m)) ∨
    ∃ entries e, m = .recordBatch entries ∧ j.recordBatch entries = (.error e, j.mutate m) := by
  have hone : ∀ {entry : Entry H .balanced P} {balances : TrialBalance P}, Accepted j entry balances →
      Appends j [entry] (j.store entry balances) := fun hacc => Appends.nil.snoc hacc
  cases m with
  | call k =>
    by_cases hk : ∃ draft, k = .record draft
    · obtain ⟨draft, rfl⟩ := hk
      rcases keep_cases ((j.record draft).map Prod.snd) j with e | e
      · rw [show j.mutate (.call (.record draft)) = j from e]
        exact .inl (.refl j)
      · obtain ⟨⟨recorded, j'⟩, hr, he⟩ := map_eq_ok.1 e
        rw [show j.mutate (.call (.record draft)) = j' from he.symm]
        rcases record_cases hr with rfl | ⟨entry, balances, hseal, hacc, rfl⟩
        · exact .inl (.refl _)
        · refine .inr (.inl ⟨[entry], hone hacc, ?_⟩)
          simp [submitted, hseal, Except.toOption]
    · exact .inl (after_sameEntries fun draft e => hk ⟨draft, e⟩)
  | recordValidated entry =>
    rcases j.mutate_recordValidated entry with h | ⟨balances, hacc, h⟩
    · rw [h]
      exact .inl (.refl j)
    · rw [h]
      exact .inr (.inl ⟨[entry], hone hacc, .refl _⟩)
  | recordBatch entries =>
    cases hb : j.recordBatch entries with
    | mk out j' =>
      rw [show j.mutate (.recordBatch entries) = j' from congrArg Prod.snd hb]
      cases out with
      | error e => exact .inr (.inr ⟨entries, e, rfl, hb⟩)
      | ok out =>
        obtain ⟨new, happ, hs⟩ := recordBatch_ok hb
        exact .inr (.inl ⟨new, happ, hs⟩)

/-- The entries of the log stay, and submitted ones are added. -/
theorem mutate_entries (j : Journal H P) (m : Mutation H P) :
    ∃ new, (j.mutate m).entries = j.entries ++ new ∧ new.Sublist (j.submitted m) := by
  rcases j.mutate_cases m with h | ⟨new, happ, hnew⟩ | ⟨entries, e, rfl, hb⟩
  · exact ⟨[], by rw [h.entries, List.append_nil], List.nil_sublist _⟩
  · exact ⟨new, happ.entries_eq, hnew⟩
  · obtain ⟨-, new, hn, hs, -⟩ := j.recordBatch_frame entries
    exact ⟨new, hn, hs⟩

/-- The log keeps holding the hashes of the entries, for any entries. -/
theorem mutate_logged {j : Journal H P} (hj : j.Logged) (m : Mutation H P) : (j.mutate m).Logged := by
  rcases j.mutate_cases m with h | ⟨new, happ, -⟩ | ⟨entries, e, -, hb⟩
  · exact h.logged hj
  · exact happ.logged hj
  · obtain ⟨balances, sites, h⟩ := recordBatch_error hj hb
    rw [h]
    exact hj

/-- The entries of the log are stored, or the submitted ones are too. -/
theorem mutate_posted {j : Journal H P} (hj : j.Posted) {m : Mutation H P} (hshort : ∀ e ∈ j.submitted m, Short e) :
    (j.mutate m).Posted ∧ ∃ new, (j.mutate m).entries = j.entries ++ new ∧ new.Sublist (j.submitted m) := by
  rcases j.mutate_cases m with h | ⟨new, happ, hnew⟩ | ⟨entries, e, rfl, hb⟩
  · exact ⟨h.posted hj, [], by rw [h.entries, List.append_nil], List.nil_sublist _⟩
  · exact ⟨happ.keeps (fun e he => hshort e (hnew.subset he)) hj fun _ _ _ hk hs hacc => hk.store hacc hs, new,
      happ.entries_eq, hnew⟩
  · rw [recordBatch_error_eq hj hshort hb]
    exact ⟨hj, [], (List.append_nil _).symm, List.nil_sublist _⟩

/-! ## Every operation -/

/-- A mutation, or a write through `accounts_mut`, `calendar_mut` or `with_policy`.
mirrors src/journal.rs:312-315,335-353 -/
inductive Operation (H : Type) (P : Scale)
  | mutate (m : Mutation H P)
  | accountsMut (accounts : AccountRegistry)
  | calendarMut (calendar : PeriodCalendar)
  | withPolicy (policy : LedgerPolicy)

/-- The journal after it. -/
def operate (j : Journal H P) : Operation H P → Journal H P
  | .mutate m => j.mutate m
  | .accountsMut accounts => { j with accounts := accounts }
  | .calendarMut calendar => { j with calendar := calendar }
  | .withPolicy policy => j.withPolicy policy

/-- The entries it submits. -/
def offered (j : Journal H P) : Operation H P → List (Entry H .balanced P)
  | .mutate m => j.submitted m
  | _ => []

/-- On a new journal of `ledger`. -/
def operations (ledger : LedgerId) : LTS (Journal H P) (Operation H P) where
  init j := j = new ledger
  step j o j' := j' = j.operate o

theorem run_operations (ledger : LedgerId) (j : Journal H P) (ks : List (Call H P)) :
    (operations ledger).Run j (ks.map fun k => .mutate (.call k)) (j.afterAll ks) := by
  induction ks generalizing j with
  | nil => exact .nil j
  | cons k ks ih => exact .cons rfl (ih _)

/-- An operation keeps the entries, stores submitted ones, or is a refused batch. -/
theorem operate_cases (j : Journal H P) (o : Operation H P) : SameEntries j (j.operate o) ∨
    (∃ new, Appends j new (j.operate o) ∧ new.Sublist (j.offered o)) ∨
    ∃ entries e, o = .mutate (.recordBatch entries) ∧ j.recordBatch entries = (.error e, j.operate o) := by
  cases o with
  | mutate m =>
    rcases j.mutate_cases m with h | h | ⟨entries, e, rfl, hb⟩
    · exact .inl h
    · exact .inr (.inl h)
    · exact .inr (.inr ⟨entries, e, rfl, hb⟩)
  | accountsMut => exact .inl ⟨rfl, rfl, rfl, rfl, rfl, rfl, rfl⟩
  | calendarMut => exact .inl ⟨rfl, rfl, rfl, rfl, rfl, rfl, rfl⟩
  | withPolicy => exact .inl ⟨rfl, rfl, rfl, rfl, rfl, rfl, rfl⟩

/-- Where positions fit their sites, a refused batch keeps the entries too. -/
theorem operate_short {j : Journal H P} (hj : j.Posted) {o : Operation H P} (hs : ∀ e ∈ j.offered o, Short e) :
    SameEntries j (j.operate o) ∨ ∃ new, Appends j new (j.operate o) ∧ new.Sublist (j.offered o) := by
  rcases j.operate_cases o with h | h | ⟨entries, e, rfl, hb⟩
  · exact .inl h
  · exact .inr h
  · rw [recordBatch_error_eq hj hs hb]
    exact .inl (.refl j)

end DoubleEntry.L3.Journal
