import DoubleEntry.L3Ledger.Registry
import DoubleEntry.L3Ledger.VerifyBalanced

/-!
# Only leaves carry postings

An entry posts to leaves when it is recorded (`isLeaf_of_seal`). A leaf with postings
stops being one when an account is registered below it, and then the account below takes
postings too (`paid_into_till`). As long as no draft posts below an account that has
postings, no two accounts with postings lie on one path of the tree (`only_leaves`).

**Assumptions.** For the positive part, `PostsToNoChild`, of every draft; it is looked at in the
state before the step. The calls are those of `Call`.

**Results.**
* `isBelow_after`: a call places no account below another among those there are.
* `only_leaves`: over runs of such steps; and a step that records a draft keeps it exactly
  when it is one.
* `paid_into_till`: a run that breaks it.
-/
namespace DoubleEntry.L3

open DoubleEntry.Core DoubleEntry.L1 DoubleEntry.L2

/-! ## Leaves -/

namespace AccountRegistry

variable {r r' : AccountRegistry} {d id : AccountId} {a b : Account}

/-- `d` is registered as a strict descendant of `id`. -/
def IsBelow (r : AccountRegistry) (d id : AccountId) : Prop := ∃ b ∈ r.get d, ∃ a ∈ r.get id, b.path.Below a.path

instance (r : AccountRegistry) (d id : AccountId) : Decidable (r.IsBelow d id) :=
  inferInstanceAs (Decidable (∃ b ∈ r.get d, ∃ a ∈ r.get id, b.path.Below a.path))

theorem isBelow_iff : r.IsBelow d id ↔
    ∃ p ∈ r.paths[d.index]?, ∃ q ∈ r.paths[id.index]?, p.Below q := by
  unfold IsBelow
  rw [getElem?_paths, getElem?_paths]
  cases r.get d <;> cases r.get id <;> simp

theorem Indexed.not_isBelow (h : r.Indexed) (hleaf : r.isLeaf id = true) : ¬ r.IsBelow d id := by
  rintro ⟨b, hb, a, ha, hbelow⟩
  exact (h.isLeaf_iff ha).1 hleaf b (List.mem_of_getElem? hb) hbelow

/-- A call places no account below another, among those there are. -/
theorem isBelow_after (k : AccountRegistry.Call) (hd : d.index < r.len) (hid : id.index < r.len) :
    (r.after k).IsBelow d id ↔ r.IsBelow d id := by
  rw [isBelow_iff, isBelow_iff, paths_after, List.getElem?_append_left (by rwa [length_paths]),
    List.getElem?_append_left (by rwa [length_paths])]

end AccountRegistry

theorem Entry.isLeaf_of_seal {H : Type} {P : Scale} {e : Entry H .draft P} {ctx : SealContext} {e' : Entry H .balanced P}
    (h : e.seal ctx = .ok e') {p : Posting P} (hp : p ∈ e'.postings) : ctx.accounts.isLeaf p.account = true := by
  obtain ⟨index, hnil⟩ := postingErrors_of_seal h hp
  have hreg := (sealed_of_seal h).registered p hp
  obtain ⟨a, ha⟩ : ∃ a, ctx.accounts.get p.account = some a := ⟨_, List.getElem?_eq_getElem hreg⟩
  simp only [postingErrors, ha, List.append_eq_nil_iff, ite_eq_left_iff, List.cons_ne_nil, imp_false, Bool.not_eq_true,
    Bool.not_eq_false] at hnil
  exact hnil.1.1.2.1

/-! ## Runs -/

namespace Journal

variable {H : Type} [Blake3 H] {P : Scale} {j j' : Journal H P}

/-- No two accounts with postings are below one another. -/
def OnlyLeaves (j : Journal H P) : Prop :=
  ∀ p ∈ postingsOf j.entries, ∀ q ∈ postingsOf j.entries, ¬ j.accounts.IsBelow p.account q.account

/-- A rollup over an account with postings has no others. -/
def RollsUp (j : Journal H P) : Prop :=
  ∀ q ∈ postingsOf j.entries, ∀ a, j.accounts.get q.account = some a →
    ∀ p ∈ postingsOf j.entries, p.account ∈ j.accounts.descendantsOf a.path → p.account = q.account

/-- A draft posts to no account below one that has postings. -/
def PostsToNoChild (j : Journal H P) : Call H P → Prop
  | .record draft => ∀ p ∈ draft.postings, ∀ q ∈ postingsOf j.entries, ¬ j.accounts.IsBelow p.account q.account
  | _ => True

theorem OnlyLeaves.rollsUp (h : j.OnlyLeaves) (hi : j.accounts.Indexed) : j.RollsUp := by
  intro q hq a ha p hp hdesc
  obtain ⟨b, hb, hbelow⟩ := hi.mem_descendantsOf.1 hdesc
  by_contra hne
  refine h p hp q hq ⟨b, hb, a, ha, hbelow, fun heq => hne ?_⟩
  have hpath := (hi.index b.path p.account).2 (by rw [AccountRegistry.getElem?_paths, hb]; rfl)
  have hpath' := (hi.index a.path q.account).2 (by rw [AccountRegistry.getElem?_paths, ha]; rfl)
  rw [heq, hpath'] at hpath
  exact (Option.some.inj hpath).symm

theorem mem_postingsOf_store {entry : Entry H .balanced P} {b : TrialBalance P} {p : Posting P} :
    p ∈ postingsOf (j.store entry b).entries ↔ p ∈ postingsOf j.entries ∨ p ∈ entry.postings := by
  show p ∈ postingsOf (j.entries ++ [entry]) ↔ _
  simp [postingsOf]

/-- A recorded entry keeps it if, and only if, it posts to no account below one that has
postings: it posts to leaves. -/
theorem onlyLeaves_store {entry : Entry H .balanced P} {balances : TrialBalance P} (h : j.OnlyLeaves) (hi : j.accounts.Indexed)
    (hleaf : ∀ p ∈ entry.postings, j.accounts.isLeaf p.account = true) : (j.store entry balances).OnlyLeaves ↔
      ∀ p ∈ entry.postings, ∀ q ∈ postingsOf j.entries, ¬ j.accounts.IsBelow p.account q.account := by
  constructor
  · intro hstore p hp q hq
    exact hstore p (mem_postingsOf_store.2 (.inr hp)) q (mem_postingsOf_store.2 (.inl hq))
  · intro hnew p hp q hq
    rcases mem_postingsOf_store.1 hq with hq | hq
    · rcases mem_postingsOf_store.1 hp with hp | hp
      · exact h p hp q hq
      · exact hnew p hp q hq
    · exact hi.not_isBelow (hleaf q hq)

variable [DecidableEq H]

/-- A call of the journal leaves its registry alone, or is a call of the registry. -/
theorem accounts_after (j : Journal H P) (k : Call H P) : (j.after k).accounts = j.accounts ∨
    ∃ c, (j.after k).accounts = j.accounts.after c := by
  have kept : ∀ {ε : Type} {x : Except ε (Journal H P)}, (∀ j', x = .ok j' → j'.accounts = j.accounts) →
      (keep x j).accounts = j.accounts ∨ ∃ c, (keep x j).accounts = j.accounts.after c := fun {ε x} h => by
    left
    rcases keep_cases x j with e | e
    · rw [e]
    · exact h _ e
  have keep_eq : ∀ {ε : Type} (x : Except ε AccountRegistry), keep x j.accounts = x.toOption.getD j.accounts := fun x => by
    cases x <;> rfl
  cases k with
  | record draft =>
    refine kept fun j' h => ?_
    obtain ⟨⟨recorded, j₁⟩, hr, rfl⟩ := map_eq_ok.1 h
    rcases record_eq_ok hr with rfl | ⟨entry, balances, -, -, rfl⟩ <;> rfl
  | definePeriod period =>
    refine kept fun j' h => ?_
    obtain ⟨calendar, -, rfl⟩ := definePeriod_eq_ok.1 h
    rfl
  | transitionPeriod id target =>
    refine kept fun j' h => ?_
    obtain ⟨calendar, -, rfl⟩ := transitionPeriod_eq_ok.1 h
    rfl
  | sealPeriod id =>
    left
    rcases j.sealPeriod_cases id with ⟨e, h⟩ | ⟨q, closing, -, -, -, h⟩
    · rw [show j.after (.sealPeriod id) = j from congrArg Prod.snd h]
    · rw [show j.after (.sealPeriod id) = _ from congrArg Prod.snd h]
  | register account => exact .inr ⟨.register account, keep_eq _⟩
  | close id on => exact .inr ⟨.close id on, keep_eq _⟩
  | reopen id => exact .inr ⟨.reopen id, keep_eq _⟩
  | setLimit id limit => exact .inr ⟨.setLimit id limit, keep_eq _⟩
  | clear clearing =>
    refine kept fun j' h => ?_
    obtain ⟨clearings, -, rfl⟩ := map_eq_ok.1 h
    rfl
  | resetClearing id on =>
    refine kept fun j' h => ?_
    obtain ⟨clearings, -, rfl⟩ := map_eq_ok.1 h
    rfl

theorem indexed_inductive (ledger : LedgerId) :
    (calls ledger).Inductive fun j : Journal H P => j.accounts.Indexed := by
  refine ⟨fun j hj => ?_, fun j k j' h st => ?_⟩
  · obtain ⟨policy, rfl⟩ := hj
    exact .new
  · obtain rfl : j' = j.after k := st
    rcases j.accounts_after k with heq | ⟨c, heq⟩ <;> rw [heq]
    · exact h
    · exact AccountRegistry.indexed_inductive.step _ c _ h rfl

/-- A step that posts to no such account keeps it. -/
theorem OnlyLeaves.step {k : Call H P} (h : j.OnlyLeaves) (hi : j.accounts.Indexed) (hr : j.Registered)
    (ok : j.PostsToNoChild k) : (j.after k).OnlyLeaves := by
  by_cases hk : ∃ draft, k = .record draft
  · obtain ⟨draft, rfl⟩ := hk
    rcases keep_cases ((j.record draft).map Prod.snd) j with e | e
    · rw [show j.after (.record draft) = j from e]
      exact h
    · obtain ⟨⟨recorded, j'⟩, hrec, he⟩ := map_eq_ok.1 e
      rw [show j.after (.record draft) = j' from he.symm]
      rcases record_eq_ok hrec with rfl | ⟨entry, balances, hseal, -, rfl⟩
      · exact h
      · obtain ⟨-, rfl⟩ := Entry.seal_eq_ok.1 hseal
        exact (onlyLeaves_store h hi fun p hp => Entry.isLeaf_of_seal hseal hp).2 ok
  · -- the entries stay, and the accounts they post to are registered already
    have hsame := after_sameEntries (j := j) fun draft e => hk ⟨draft, e⟩
    intro p hp q hq
    rw [hsame.entries] at hp hq
    have registered : ∀ {p : Posting P}, p ∈ postingsOf j.entries → p.account.index < j.accounts.len := fun hp => by
      obtain ⟨e, he, hp⟩ := List.mem_flatMap.1 hp
      exact hr e he _ hp
    rcases j.accounts_after k with heq | ⟨c, heq⟩ <;> rw [heq]
    · exact h p hp q hq
    · rw [AccountRegistry.isBelow_after c (registered hp) (registered hq)]
      exact h p hp q hq

/-- **Only leaves carry postings**, as long as no draft posts below an account that has
postings; a draft that does, and is recorded, breaks it. -/
theorem only_leaves (ledger : LedgerId) (hj : ((calls ledger).restrict PostsToNoChild).Reachable j) :
    j.OnlyLeaves ∧ j.RollsUp ∧ ∀ draft recorded j', j.record draft = .ok (recorded, j') → j'.entries ≠ j.entries →
      (j'.OnlyLeaves ↔ j.PostsToNoChild (.record draft)) := by
  have hreach := hj.of_restrict
  have hi := (indexed_inductive ledger).reachable hreach
  have hinv : ((calls ledger).restrict PostsToNoChild).Inductive
      fun j : Journal H P => j.accounts.Indexed ∧ j.Registered ∧ j.OnlyLeaves := by
    refine ⟨fun j h => ?_, fun j k j' ⟨hi, hr, ho⟩ ⟨st, ok⟩ => ?_⟩
    · refine ⟨(indexed_inductive ledger).init j h, (registered_stable ledger).init j h, ?_⟩
      obtain ⟨policy, rfl⟩ := h
      intro p hp
      cases hp
    · refine ⟨(indexed_inductive ledger).step j k j' hi st, (registered_stable ledger).step j k j' hr st, ?_⟩
      obtain rfl : j' = j.after k := st
      exact ho.step hi hr ok
  obtain ⟨-, -, ho⟩ := hinv.reachable hj
  refine ⟨ho, ho.rollsUp hi, fun draft recorded j' hrec hne => ?_⟩
  rcases record_eq_ok hrec with rfl | ⟨entry, balances, hseal, -, rfl⟩
  · exact absurd rfl hne
  · obtain ⟨-, rfl⟩ := Entry.seal_eq_ok.1 hseal
    exact onlyLeaves_store ho hi fun p hp => Entry.isLeaf_of_seal hseal hp

/-! ## A till below cash -/

/-- The sale is on file; an account is registered below cash. -/
def tillRegistered : List (Call Preimage cents) :=
  marchDefined ++ [.record saleOfMarch, .register (.new ⟨["Assets", "Cash", "Till"], rfl⟩ cash.openedOn)]

def tillId : AccountId := .ofPosition 2

/-- A sale of March paid into the till. -/
def tillSale : Entry Preimage .draft cents :=
  ((Entry.new saleOfApril.id saleOfApril.idempotencyKey march.end).post (.debit tillId tenEuro .eur)).post
    (.credit salesId tenEuro .eur)

def tillBelowCash : Journal Preimage cents := (new books).afterAll tillRegistered

/-- Not vacuous: nothing is paid into the till yet. -/
theorem tillBelowCash_leaves : tillBelowCash.OnlyLeaves ∧ tillBelowCash.RollsUp ∧ ∀ draft recorded j',
    tillBelowCash.record draft = .ok (recorded, j') → j'.entries ≠ tillBelowCash.entries →
      (j'.OnlyLeaves ↔ tillBelowCash.PostsToNoChild (.record draft)) := by
  have hrun : ((calls books).restrict PostsToNoChild).Run (new books) tillRegistered tillBelowCash :=
    .cons ⟨rfl, trivial⟩ (.cons ⟨rfl, trivial⟩ (.cons ⟨rfl, trivial⟩ (.cons ⟨rfl, fun _ _ _ hq => (List.not_mem_nil hq).elim⟩
      (.cons ⟨rfl, trivial⟩ (.nil _)))))
  exact only_leaves books ⟨_, _, ⟨.permissive, rfl⟩, hrun⟩

set_option maxRecDepth 10000 in
/-- A sale paid into the till is recorded; cash has a posting, too. -/
theorem paid_into_till : ¬ ∀ j : Journal Preimage cents, (calls books).Reachable j → j.OnlyLeaves := by
  intro h
  have hreach : (calls books).Reachable ((new books).afterAll (tillRegistered ++ [.record tillSale])) :=
    reachable_afterAll books .permissive _
  exact absurd (h _ hreach (.debit tillId tenEuro .eur) (by decide) (.debit cashId tenEuro .eur) (by decide)) (by decide)

end Journal

end DoubleEntry.L3
