import DoubleEntry.L3Ledger.BatchRun

/-!
# The maps of a journal

The identifier index, the key index and the map of reversals are derived from the
entries: a lookup answers with the one entry that has the identifier, the key or the
reversal (`Mapped`). Every operation keeps this, on any entries (`mapped_of_reachable`): a
stored entry was not in the maps, and a refused batch gives them back.

**Results.**
* `id_fresh`, `reversal_fresh`: what a map does not have, no entry has.
* `store`, `operate`: one stored entry, one operation.
* `operate_entries`: an operation only adds what was submitted, under keys not on file.
-/
namespace DoubleEntry.L3.Journal

open DoubleEntry.Core DoubleEntry.L1 DoubleEntry.L2

variable {H : Type} [Blake3 H] {P : Scale}

/-- The maps and the log are those of the entries, and no two entries share an identifier or a key. -/
structure Mapped (j : Journal H P) : Prop where
  logged : j.Logged
  ids : (j.entries.map (·.id)).Nodup
  keys : (j.entries.map (·.idempotencyKey)).Nodup
  byId : ∀ id i, j.byId.get? id = some i ↔ ∃ e, j.entries[i]? = some e ∧ e.id = id
  byKey : ∀ key id i hash, j.byKey.get? key = some (id, i, hash) ↔
    ∃ e, j.entries[i]? = some e ∧ e.idempotencyKey = key ∧ e.id = id ∧ e.contentHash = hash
  reversedBy : ∀ original id, j.reversedBy.get? original = some id ↔
    ∃ e ∈ j.entries, e.reverses = some original ∧ e.id = id

theorem mapped_new (ledger : LedgerId) (policy : LedgerPolicy) : ((new ledger).withPolicy policy : Journal H P).Mapped where
  logged := rfl
  ids := .nil
  keys := .nil
  byId id i := by simp [new, withPolicy]
  byKey key id i hash := by simp [new, withPolicy]
  reversedBy original id := by simp [new, withPolicy]

namespace Mapped

variable {j : Journal H P}

/-- An identifier without an index entry is on no entry. -/
theorem id_fresh (h : j.Mapped) {id : EntryId} (hid : j.byId.get? id = none) : ∀ e ∈ j.entries, e.id ≠ id := by
  intro e he heq
  obtain ⟨i, hi⟩ := List.mem_iff_getElem?.1 he
  rw [(h.byId id i).2 ⟨e, hi, heq⟩] at hid
  cases hid

theorem key_fresh (h : j.Mapped) {key : IdempotencyKey} (hkey : j.byKey.get? key = none) :
    ∀ e ∈ j.entries, e.idempotencyKey ≠ key := by
  intro e he heq
  obtain ⟨i, hi⟩ := List.mem_iff_getElem?.1 he
  rw [(h.byKey key e.id i e.contentHash).2 ⟨e, hi, heq, rfl, rfl⟩] at hkey
  cases hkey

/-- An original without a reversal on file is reversed by no entry. -/
theorem reversal_fresh (h : j.Mapped) {original : EntryId} (ho : j.reversedBy.get? original = none) :
    ∀ e ∈ j.entries, e.reverses ≠ some original := by
  intro e he heq
  rw [(h.reversedBy original e.id).2 ⟨e, he, heq, rfl⟩] at ho
  cases ho

/-- What `get` finds. -/
theorem get_eq_some (h : j.Mapped) {id : EntryId} {e : Entry H .balanced P} (hg : j.get id = some e) :
    e ∈ j.entries ∧ e.id = id := by
  obtain ⟨i, hi, hat⟩ := Option.bind_eq_some_iff.1 hg
  obtain ⟨e', he', hid⟩ := (h.byId id i).1 hi
  have heq : some e' = some e := he'.symm.trans hat
  cases heq
  exact ⟨List.mem_of_getElem? he', hid⟩

theorem store (h : j.Mapped) {entry : Entry H .balanced P} {b : TrialBalance P} (hacc : Accepted j entry b) :
    (j.store entry b).Mapped where
  logged := h.logged.store entry b
  ids := nodup_map_concat h.ids (h.id_fresh hacc.id)
  keys := nodup_map_concat h.keys (h.key_fresh hacc.key)
  byId id i := by
    show (j.byId.insert entry.id j.log.accumulator.size).get? id = some i ↔
      ∃ e, (j.entries ++ [entry])[i]? = some e ∧ e.id = id
    rw [OrdMap.get?_insert, h.logged.size]
    simp only [getElem?_concat_eq_some, or_and_right, exists_or, ← h.byId id i]
    by_cases hid : entry.id = id
    · subst hid
      simp [hacc.id, eq_comm]
    · simp [hid]
  byKey key id i hash := by
    show (j.byKey.insert entry.idempotencyKey (entry.id, j.log.accumulator.size, entry.contentHash)).get? key =
      some (id, i, hash) ↔ ∃ e, (j.entries ++ [entry])[i]? = some e ∧ e.idempotencyKey = key ∧ e.id = id ∧
        e.contentHash = hash
    rw [OrdMap.get?_insert, h.logged.size]
    simp only [getElem?_concat_eq_some, or_and_right, exists_or, ← h.byKey key id i hash]
    by_cases hkey : entry.idempotencyKey = key
    · subst hkey
      simp only [hacc.key, if_true, Option.some.injEq, Prod.mk.injEq, reduceCtorEq, false_or]
      constructor
      · intro h
        obtain ⟨hid, hi, hhash⟩ := h
        exact ⟨entry, ⟨hi.symm, rfl⟩, rfl, hid, hhash⟩
      · intro h
        obtain ⟨e, ⟨hi, he⟩, -, hid, hhash⟩ := h
        subst he
        exact ⟨hid, hi.symm, hhash⟩
    · rw [if_neg hkey]
      refine ⟨.inl, fun ho => ho.resolve_right ?_⟩
      intro h
      obtain ⟨e, ⟨-, he⟩, hk, -⟩ := h
      subst he
      exact hkey hk
  reversedBy original id := by
    have hold := h.reversedBy original id
    show (entry.reverses.elim j.reversedBy fun o => j.reversedBy.insert o entry.id).get? original = some id ↔
      ∃ e ∈ j.entries ++ [entry], e.reverses = some original ∧ e.id = id
    simp only [List.mem_append, List.mem_singleton, or_and_right, exists_or, exists_eq_left, ← hold]
    cases ho : entry.reverses with
    | none => simp
    | some o =>
      rw [Option.elim_some, OrdMap.get?_insert]
      by_cases heq : o = original
      · subst heq
        simp [(hacc.reverses o ho).1]
      · simp [heq]

theorem sameEntries {j' : Journal H P} (h : j.Mapped) (hs : SameEntries j j') : j'.Mapped where
  logged := hs.logged h.logged
  ids := by rw [hs.entries]; exact h.ids
  keys := by rw [hs.entries]; exact h.keys
  byId := by rw [hs.entries, hs.byId]; exact h.byId
  byKey := by rw [hs.entries, hs.byKey]; exact h.byKey
  reversedBy := by rw [hs.entries, hs.reversedBy]; exact h.reversedBy

theorem patch (h : j.Mapped) (balances : TrialBalance P) (sites : OrdMap BalanceKey (List Site)) :
    (j.patch j.log balances sites).Mapped :=
  ⟨h.logged, h.ids, h.keys, h.byId, h.byKey, h.reversedBy⟩

variable [DecidableEq H]

theorem operate (h : j.Mapped) (o : Operation H P) : (j.operate o).Mapped := by
  rcases j.operate_cases o with hs | ⟨new, happ, -⟩ | ⟨entries, e, -, hb⟩
  · exact h.sameEntries hs
  · exact happ.keepsAll h fun k e b hk hacc => hk.store hacc
  · obtain ⟨balances, sites, heq⟩ := recordBatch_error h.logged hb
    rw [heq]
    exact h.patch balances sites

omit [DecidableEq H] in
/-- Entries stored one after another have keys that were not on file. -/
theorem fresh {k : Journal H P} {new : List (Entry H .balanced P)} (h : Appends j new k) (hk : k.Mapped) :
    ∀ e ∈ new, ∀ x ∈ j.entries, x.idempotencyKey ≠ e.idempotencyKey := by
  have hkeys := hk.keys
  rw [h.entries_eq, List.map_append, List.nodup_append] at hkeys
  exact fun e he x hx => hkeys.2.2 _ (List.mem_map_of_mem hx) _ (List.mem_map_of_mem he)

/-- What an operation adds was submitted, under keys that were not on file. -/
theorem operate_entries (h : j.Mapped) (o : Operation H P) : ∃ later, (j.operate o).entries = j.entries ++ later ∧
    ∀ e ∈ later, e ∈ j.offered o ∧ ∀ x ∈ j.entries, x.idempotencyKey ≠ e.idempotencyKey := by
  rcases j.operate_cases o with hs | ⟨new, happ, hsub⟩ | ⟨entries, e, -, hb⟩
  · exact ⟨[], by rw [hs.entries, List.append_nil], fun e he => absurd he List.not_mem_nil⟩
  · exact ⟨new, happ.entries_eq, fun e he => ⟨hsub.subset he, fresh happ (h.operate o) e he⟩⟩
  · obtain ⟨balances, sites, heq⟩ := recordBatch_error h.logged hb
    exact ⟨[], by rw [heq, List.append_nil]; rfl, fun e he => absurd he List.not_mem_nil⟩

end Mapped

variable [DecidableEq H]

theorem mapped_of_reachable {ledger : LedgerId} {j : Journal H P} (hj : (operations ledger).Reachable j) : j.Mapped := by
  refine LTS.Inductive.reachable (T := operations ledger) ⟨?_, ?_⟩ hj
  · intro j h
    obtain rfl : j = new ledger := h
    exact mapped_new ledger .permissive
  · intro j o j' h st
    obtain rfl : j' = j.operate o := st
    exact h.operate o

end DoubleEntry.L3.Journal
