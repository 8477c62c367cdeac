import DoubleEntry.L3Ledger.Commitments
import DoubleEntry.L3Ledger.Restoring
import DoubleEntry.L3Ledger.SealChain
import DoubleEntry.L4Store.Handles
import DoubleEntry.L4Store.SqlLog
import DoubleEntry.L5Concurrency.ClientLog

/-!
# The stored seals are a chain

`seal_period` is several statements, with no transaction around them. It reads the seals,
then the head of the log, then the accounts, and then stores its seal at the position after
the last seal it has read. Other calls may store theirs in between; then the position is
taken (`UNIQUE (chain_position)`) and the call fails.

So a seal that is stored links to the last one (`Ready`): nothing was stored since its
client read the chain, the head was read after the last seal's was, and so were the
accounts, of which no handle is ever bound to another path. In every run of any clients the
stored seals are a chain that `from_seals` accepts, and its heads and commitments are those
of the first entries and the first accounts on file (`stored_chain_verifies`).

**Assumptions.** None on the hash, and none on the clients: their calls overlap as they like, also
with appends and registrations, and may fail at any statement.

**Results.**
* `fromSeals_concat`: one more seal that links.
* `insertSeal_new`: what the constraints of the table ask for.
* `chained_step`: one step keeps the chain, and clients ready.
* `stored_chain_verifies`: every run.
-/
namespace DoubleEntry.L5

open DoubleEntry.Core DoubleEntry.L1 DoubleEntry.L2 DoubleEntry.L3 DoubleEntry.L4

variable {H : Type} [Blake3 H] [DecidableEq H] {P : Scale}

/-! ## Chains -/

/-- A seal of a new period that links to the last one is accepted. -/
theorem fromSeals_concat {ledger : LedgerId} {seals : List (Seal H)} {c : SealChain H} {x : Seal H}
    (h : SealChain.fromSeals ledger seals = .ok c) (hself : x.isSelfConsistent = true) (hledger : x.ledger = ledger)
    (hnew : ∀ y ∈ seals, y.period ≠ x.period) (hprev : x.prevSeal = seals.getLast?.map (·.sealHash))
    (hsizes : ∀ prev ∈ seals.getLast?, prev.treeHead.size ≤ x.treeHead.size ∧ prev.accounts.size ≤ x.accounts.size) :
    SealChain.fromSeals ledger (seals ++ [x]) = .ok (c.add x) := by
  obtain ⟨hl, hs, -, hperiods⟩ := SealChain.fromSeals_ok h
  have hunseen : c.periods.contains x.period = false := by
    by_contra hin
    obtain ⟨y, hy, hid⟩ := hperiods _ (by simpa using hin)
    exact hnew y hy hid
  have hlink : SealChain.checkLink c.ledger c.periods c.seals.getLast? x = .ok () := by
    rw [hl, hs]
    exact SealChain.checkLink_eq_ok.2 ⟨hself, hledger, hunseen, hprev, hsizes⟩
  have hpush : c.push x = .ok (c.add x) := by rw [SealChain.push, hlink]
  rw [SealChain.fromSeals, List.foldlM_append]
  exact bind_eq_ok.2 ⟨c, h, bind_eq_ok.2 ⟨c.add x, hpush, rfl⟩⟩

/-! ## Heads and accounts on file -/

/-- The accounts of a registry are on file, at their handles. -/
def Filed (accounts : OrdMap AccountId Account) (r : AccountRegistry) : Prop := ∀ i path, r.paths[i]? = some path →
  ∃ id a, id.index = i ∧ accounts.get? id = some a ∧ a.path = path

/-- No handle is bound to another path. -/
def StaysBound (accounts accounts' : OrdMap AccountId Account) : Prop := ∀ id a, accounts.get? id = some a →
  ∃ a', accounts'.get? id = some a' ∧ a'.path = a.path

theorem StaysBound.refl (accounts : OrdMap AccountId Account) : StaysBound accounts accounts := fun _ a h => ⟨a, h, rfl⟩

theorem Filed.stays {accounts accounts' : OrdMap AccountId Account} {r : AccountRegistry} (h : Filed accounts r)
    (hs : StaysBound accounts accounts') : Filed accounts' r := fun i path hp => by
  obtain ⟨id, a, hid, ha, hpath⟩ := h i path hp
  obtain ⟨a', ha', hpath'⟩ := hs id a ha
  exact ⟨id, a', hid, ha', hpath'.trans hpath⟩

section
omit [Blake3 H] [DecidableEq H]

/-- What is restored from the rows is on file, and what was on file before is restored. -/
theorem filed_fromRecords {t : Tables H P} {r : AccountRegistry} (h : AccountRegistry.fromRecords t.accountRecords = .ok r) :
    Filed t.accounts r ∧ ∀ r₀, Filed t.accounts r₀ → r₀.Grows r := by
  have hholds := AccountRegistry.holds_of_foldlM h
  have hmem : ∀ record, record ∈ t.accountRecords.insertionSort (fun a b => a.id.index ≤ b.id.index) ↔
      t.accounts.get? record.id = some record.account := fun record => by
    rw [List.mem_insertionSort, Tables.accountRecords, List.mem_map]
    constructor
    · rintro ⟨e, he, rfl⟩
      exact OrdMap.mem_entries.1 he
    · exact fun hr => ⟨(record.id, record.account), OrdMap.mem_entries.2 hr, rfl⟩
  have hpaths : ∀ id a, t.accounts.get? id = some a → r.paths[id.index]? = some a.path := fun id a ha =>
    hholds.paths ⟨id, a⟩ ((hmem ⟨id, a⟩).2 ha)
  constructor
  · intro i path hp
    obtain ⟨hlt, -⟩ := List.getElem?_eq_some_iff.1 hp
    rw [AccountRegistry.length_paths] at hlt
    obtain ⟨record, hr, rfl⟩ := hholds.handles i hlt
    rw [hholds.paths record hr] at hp
    exact ⟨record.id, record.account, rfl, (hmem record).1 hr, Option.some.inj hp⟩
  · intro r₀ hr₀
    refine List.prefix_iff_getElem?.2 fun i hi => ?_
    obtain ⟨id, a, hid, ha, hpath⟩ := hr₀ i _ (List.getElem?_eq_getElem hi)
    have hget := hpaths id a ha
    rw [hid, hpath] at hget
    exact hget

theorem registerAccount_staysBound {B : Backend} {t t' : Tables H P} {record : AccountRecord}
    (h : t.registerAccount B record = .ok t') : StaysBound t.accounts t'.accounts := by
  intro id a ha
  obtain ⟨rfl, hpath⟩ := Tables.registerAccount_written h
  show ∃ a', (t.accounts.insert (B.handle record.id) record.account).get? id = some a' ∧ a'.path = a.path
  rw [OrdMap.get?_insert]
  by_cases hid : B.handle record.id = id
  · rw [if_pos hid]
    exact ⟨_, rfl, (hpath a (hid ▸ ha)).symm⟩
  · rw [if_neg hid]
    exact ⟨a, ha, rfl⟩

end

/-! ## A client between its reads -/

/-- What later tables have of earlier ones. -/
structure Grown (t t' : Tables H P) : Prop where
  ledger : t'.ledger = t.ledger
  log : ∃ later, t'.log = t.log ++ later
  accounts : StaysBound t.accounts t'.accounts
  seals : t.seals <+: t'.seals

omit [Blake3 H] [DecidableEq H] in
theorem Grown.refl (t : Tables H P) : Grown t t := ⟨rfl, ⟨[], (List.append_nil _).symm⟩, .refl _, List.prefix_rfl⟩

/-- The heads in a seal: of the first entries, and of accounts on file. -/
structure Commits (t : Tables H P) (x : Seal H) : Prop where
  head : OfLog t.log x.treeHead
  accounts : ∃ r, Filed t.accounts r ∧ x.accounts = r.commitment

omit [DecidableEq H] in
theorem Commits.grown {t t' : Tables H P} {x : Seal H} (h : Commits t x) (hg : Grown t t') : Commits t' x where
  head := by
    obtain ⟨later, hlater⟩ := hg.log
    rw [hlater]
    exact h.head.append later
  accounts := by
    obtain ⟨r, hr, hx⟩ := h.accounts
    exact ⟨r, hr.stays hg.accounts, hx⟩

/-- The seals that a client has read are the first of those stored. -/
structure HasRead (t : Tables H P) (position : Nat) (prev : Option H) : Prop where
  stored : position ≤ t.seals.length
  last : prev = (t.seals.take position).getLast?.map (·.sealHash)

omit [Blake3 H] [DecidableEq H] in
theorem take_seals {t t' : Tables H P} (hg : Grown t t') {position : Nat} (h : position ≤ t.seals.length) :
    t'.seals.take position = t.seals.take position := by
  obtain ⟨more, hmore⟩ := hg.seals
  rw [← hmore, List.take_append_of_le_length h]

omit [Blake3 H] [DecidableEq H] in
theorem HasRead.grown {t t' : Tables H P} {position : Nat} {prev : Option H} (h : HasRead t position prev)
    (hg : Grown t t') : HasRead t' position prev :=
  ⟨h.stored.trans hg.seals.length_le, by rw [take_seals hg h.stored]; exact h.last⟩

/-- What a client has read is still so, and no less than what the last of those seals counts. -/
def Client.Ready (t : Tables H P) : Client H P → Prop
  | .chained _ _ _ position prev => HasRead t position prev
  | .headed _ _ _ position prev head => HasRead t position prev ∧ OfLog t.log head ∧
      ∀ y ∈ (t.seals.take position).getLast?, y.treeHead.size ≤ head.size
  | .built _ position x => HasRead t position x.prevSeal ∧ Commits t x ∧ x.isSelfConsistent = true ∧ x.ledger = t.ledger ∧
      ∀ y ∈ (t.seals.take position).getLast?, y.treeHead.size ≤ x.treeHead.size ∧ y.accounts.size ≤ x.accounts.size
  | _ => True

theorem Client.Ready.grown {t t' : Tables H P} {c : Client H P} (h : c.Ready t) (hg : Grown t t') : c.Ready t' := by
  cases c with
  | chained => exact HasRead.grown h hg
  | headed _ _ _ position prev head =>
    obtain ⟨hread, hhead, hlast⟩ := h
    obtain ⟨later, hlater⟩ := hg.log
    refine ⟨hread.grown hg, hlater ▸ hhead.append later, ?_⟩
    rw [take_seals hg hread.stored]
    exact hlast
  | built _ position x =>
    obtain ⟨hread, hcommits, hself, hledger, hlast⟩ := h
    refine ⟨hread.grown hg, hcommits.grown hg, hself, hledger.trans hg.ledger.symm, ?_⟩
    rw [take_seals hg hread.stored]
    exact hlast
  | _ => trivial

/-- The tables hold a log, the stored seals are a chain that commits to it and to the
accounts, and every client can link to the seals it has read. -/
structure Chained (s : St H P) : Prop where
  log : s.tables.LogInv s.tables.log
  accepted : ∃ c, SealChain.fromSeals s.tables.ledger s.tables.seals = .ok c
  commits : ∀ x ∈ s.tables.seals, Commits s.tables x
  clients : ∀ c ∈ s.clients, c.Ready s.tables

theorem chained_initial (ledger : LedgerId) (clients : Nat) : Chained (St.initial ledger clients : St H P) where
  log := Tables.logInv_empty ledger
  accepted := ⟨.new ledger, rfl⟩
  commits x hx := (List.not_mem_nil hx).elim
  clients c hc := by
    rw [List.eq_of_mem_replicate hc]
    trivial

/-- A read takes a client that is ready to one that is. -/
theorem ready_of_read {B : Backend} {t : Tables H P} (hlog : t.LogInv t.log)
    (haccepted : ∃ c, SealChain.fromSeals t.ledger t.seals = .ok c) (hcommits : ∀ x ∈ t.seals, Commits t x)
    {l : Lbl H P} {c c' : Client H P} (hc : c.Ready t) (h : c.read B t l = some c') : c'.Ready t := by
  unfold Client.read at h
  split at h
  · -- `readTransition`
    split at h
    · cases h; trivial
    · split at h <;> cases h <;> trivial
  · -- `readCalendar`
    split at h
    · cases h; trivial
    · split at h <;> cases h <;> trivial
  · cases h; trivial
  · split at h <;> cases h <;> trivial
  · -- `readSeals`
    obtain ⟨chain, hchain⟩ := haccepted
    rw [hchain] at h
    cases h
    have hseals := (SealChain.fromSeals_ok hchain).2.1
    refine ⟨hseals ▸ le_rfl, ?_⟩
    rw [SealChain.head, hseals, List.take_length]
  · -- `readHead`: no less than what the last seal counts, which is of the log, too
    cases h
    have hhead := Tables.head_eq hlog.logOf
    have hsize : t.head.size = t.log.length := by rw [hhead]
    refine ⟨hc, ⟨hsize.le, ?_⟩, fun y hy => ?_⟩
    · have hall : (hashes t.log).take t.log.length = hashes t.log :=
        List.take_of_length_le (List.length_map _).le
      rw [hsize, hall, hhead]
    · rw [hsize]
      exact (hcommits y (List.mem_of_mem_take (List.mem_of_getLast? hy))).head.1
  · -- `readAccounts`
    split at h
    · cases h; trivial
    · rename_i accounts haccounts
      cases h
      obtain ⟨hread, hhead, hlast⟩ := hc
      obtain ⟨hfiled, hgrows⟩ := filed_fromRecords haccounts
      refine ⟨hread, ⟨hhead, accounts, hfiled, rfl⟩, decide_eq_true rfl, rfl, fun y hy => ⟨hlast y hy, ?_⟩⟩
      obtain ⟨r, hr, hy'⟩ := (hcommits y (List.mem_of_mem_take (List.mem_of_getLast? hy))).accounts
      rw [hy', AccountRegistry.commitment_eq]
      exact ((hgrows r hr).len_le).trans (congrArg TreeHead.size (AccountRegistry.commitment_eq accounts)).ge
  · cases h; trivial
  · cases h

/-! ## A step -/

namespace St

variable {B : Backend} {s s' : St H P} {l : Lbl H P}

theorem readStep_eq_some (h : s.readStep B l = some s') : ∃ c c', s.clients[l.client]? = some c ∧
    c.read B s.tables l = some c' ∧ s' = s.setClient l.client c' := by
  unfold readStep at h
  split at h
  · cases h
  · rename_i c hc
    obtain ⟨c', hc', rfl⟩ := Option.map_eq_some_iff.1 h
    exact ⟨c, c', hc, hc', rfl⟩

/-- What a step does to the accounts, to the seals and to the clients. -/
inductive Stores (B : Backend) (s : St H P) : Lbl H P → St H P → Prop
  | same {l : Lbl H P} {s' : St H P} (ledger : s'.tables.ledger = s.tables.ledger)
      (accounts : s'.tables.accounts = s.tables.accounts) (seals : s'.tables.seals = s.tables.seals)
      (clients : ∀ c ∈ s'.clients, c ∈ s.clients ∨ c = .idle) : Stores B s l s'
  | registered {record : AccountRecord} {t : Tables H P} (ok : s.tables.registerAccount B record = .ok t) :
      Stores B s (.registerAccount record) { s with tables := t }
  | read {l : Lbl H P} {c c' : Client H P} (hc : s.clients[l.client]? = some c) (ok : c.read B s.tables l = some c') :
      Stores B s l (s.setClient l.client c')
  | stored {i position : Nat} {p : Period} {x : Seal H} {t : Tables H P} (hc : s.clients[i]? = some (.built p position x))
      (ok : s.tables.insertSeal position x = some t) :
      Stores B s (.commitSeal i) { s.setClient i .idle with tables := t }

theorem stores_of_step (hl : s.tables.LogInv s.tables.log) (h : s.step B l = some s') : Stores B s l s' := by
  have hset : ∀ (i : Nat) (c : Client H P), c ∈ (s.clients.set i .idle) → c ∈ s.clients ∨ c = .idle := fun i c hc =>
    List.mem_or_eq_of_mem_set hc
  cases l with
  | registerAccount record =>
    simp only [step] at h
    split at h
    · cases h
      exact .same rfl rfl rfl fun c hc => .inl hc
    · rename_i t ok
      cases h
      exact .registered ok
  | commitSeal i =>
    simp only [step] at h
    split at h
    · rename_i p position x hc
      split at h
      · cases h
        exact .same rfl rfl rfl (hset i)
      · rename_i t ok
        cases h
        exact .stored hc ok
    · cases h
  | append batch =>
    simp only [step] at h
    split at h
    · split at h
      · cases h
        exact .same rfl rfl rfl fun c hc => .inl hc
      · rename_i out t ok
        cases h
        obtain ⟨rows, subtrees, rfl, -, -⟩ := Tables.append_spec hl ok
        exact .same rfl rfl rfl fun c hc => .inl hc
    · cases h
  | commit xid =>
    simp only [step] at h
    split at h
    · cases h
    · split at h
      · cases h
        exact .same rfl rfl rfl fun c hc => .inl hc
      · rename_i t ok
        cases h
        obtain ⟨rows, rfl, -, -⟩ := Tables.commitBatch_spec hl ok
        exact .same rfl rfl rfl fun c hc => .inl hc
  | sequence xmin =>
    simp only [step] at h
    split at h
    · split at h
      · cases h
        exact .same rfl rfl rfl fun c hc => .inl hc
      · rename_i n t ok
        cases h
        have hframe := (Tables.sequence_spec hl ok).2.frame
        exact .same (by rw [hframe]) (by rw [hframe]) (by rw [hframe]) fun c hc => .inl hc
    · cases h
  | update i =>
    simp only [step] at h
    split at h
    · cases h
      exact .same rfl rfl rfl (hset i)
    · cases h
  | validate draft ctx =>
    simp only [step] at h
    split at h <;> cases h <;> exact .same rfl rfl rfl fun c hc => .inl hc
  | drop e =>
    cases h
    exact .same rfl rfl rfl fun c hc => .inl hc
  | begin batch =>
    simp only [step] at h
    split at h
    · cases h
      exact .same rfl rfl rfl fun c hc => .inl hc
    · cases h
  | abort xid =>
    cases h
    exact .same rfl rfl rfl fun c hc => .inl hc
  | definePeriod p =>
    simp only [step] at h
    split at h <;> cases h <;> exact .same rfl rfl rfl fun c hc => .inl hc
  | _ =>
    obtain ⟨c, c', hc, hread, rfl⟩ := readStep_eq_some h
    exact .read hc hread

theorem Stores.grown (h : Stores B s l s') (hl : s.tables.LogInv s.tables.log) (hs : s.step B l = some s') :
    Grown s.tables s'.tables where
  log := by
    obtain ⟨later, -, hlog, -⟩ := (effect_of_step hs).log hl
    exact ⟨later, hlog⟩
  ledger := by
    cases h with
    | same ledger => exact ledger
    | registered ok =>
      obtain ⟨accounts, rfl⟩ := Tables.registerAccount_eq_ok ok
      rfl
    | read => rfl
    | stored hc ok =>
      obtain rfl := Tables.insertSeal_eq_some ok
      rfl
  accounts := by
    cases h with
    | same _ accounts =>
      rw [accounts]
      exact .refl _
    | registered ok => exact registerAccount_staysBound ok
    | read => exact .refl _
    | stored hc ok =>
      obtain rfl := Tables.insertSeal_eq_some ok
      exact .refl _
  seals := by
    cases h with
    | same _ _ seals => rw [seals]
    | registered ok =>
      obtain ⟨accounts, rfl⟩ := Tables.registerAccount_eq_ok ok
      exact List.prefix_rfl
    | read => exact List.prefix_rfl
    | stored hc ok =>
      obtain rfl := Tables.insertSeal_eq_some ok
      exact List.prefix_append _ _

omit [Blake3 H] in
/-- The constraints of the table: the period is new, and the position is that of the last seal plus one. -/
theorem insertSeal_new {t t' : Tables H P} {position : Nat} {x : Seal H} (h : t.insertSeal position x = some t') :
    (∀ y ∈ t.seals, y.period ≠ x.period) ∧ t.seals.length ≤ position := by
  unfold Tables.insertSeal at h
  split at h
  · rename_i hok
    obtain ⟨hall, hposition, -⟩ := hok
    exact ⟨fun y hy => (of_decide_eq_true (List.all_eq_true.1 hall y hy)).1, hposition⟩
  · cases h

/-- **One step.** -/
theorem chained_step (hi : Chained s) (h : s.step B l = some s') : Chained s' := by
  have hstores := stores_of_step hi.log h
  have hgrown := hstores.grown hi.log h
  have hlog := ((effect_of_step h).log hi.log).choose_spec.1
  have hready : ∀ c ∈ s.clients, c.Ready s'.tables := fun c hc => (hi.clients c hc).grown hgrown
  have hkept : ∀ x ∈ s.tables.seals, Commits s'.tables x := fun x hx => (hi.commits x hx).grown hgrown
  cases hstores with
  | same ledger accounts seals clients =>
    refine ⟨hlog, ?_, ?_, fun c hc => ?_⟩
    · rw [ledger, seals]
      exact hi.accepted
    · rw [seals]
      exact hkept
    · rcases clients c hc with hc | rfl
      · exact hready c hc
      · trivial
  | registered ok =>
    obtain ⟨accounts, rfl⟩ := Tables.registerAccount_eq_ok ok
    exact ⟨hlog, hi.accepted, hkept, hready⟩
  | @read _ c c' hc ok =>
    refine ⟨hlog, hi.accepted, hi.commits, fun d hd => ?_⟩
    rcases List.mem_or_eq_of_mem_set hd with hd | rfl
    · exact hi.clients d hd
    · exact ready_of_read hi.log hi.accepted hi.commits (hi.clients c (List.mem_of_getElem? hc)) ok
  | @stored i position p x t hc ok =>
    obtain ⟨hread, hcommits, hself, hledger, hlast⟩ := hi.clients _ (List.mem_of_getElem? hc)
    obtain ⟨hnew, hfree⟩ := insertSeal_new ok
    obtain rfl := Tables.insertSeal_eq_some ok
    -- the position is free, so nothing was stored since the client read the chain
    have hall : s.tables.seals.take position = s.tables.seals := List.take_of_length_le hfree
    obtain ⟨chain, hchain⟩ := hi.accepted
    refine ⟨hlog, ⟨chain.add x, fromSeals_concat hchain hself hledger hnew ?_ ?_⟩, fun y hy => ?_, fun d hd => ?_⟩
    · rw [hread.last, hall]
    · rw [← hall]
      exact hlast
    · rcases List.mem_append.1 hy with hy | hy
      · exact hkept y hy
      · rw [List.mem_singleton.1 hy]
        exact hcommits.grown hgrown
    · rcases List.mem_or_eq_of_mem_set hd with hd | rfl
      · exact hready d hd
      · trivial

theorem chained_of_reachable (h : (system B).Reachable s) : Chained s := by
  refine LTS.Inductive.reachable (T := system B) (I := Chained) ⟨fun s hs => ?_, fun s l s' hi st => chained_step hi st⟩ h
  obtain ⟨ledger, clients, rfl⟩ := hs
  exact chained_initial ledger clients

/-- **The stored seals are a chain**, in every run of any clients, whichever of their
statements come in between: `from_seals` accepts what the table holds, and the chain
verifies. Each seal has the head of the first entries of the log, as it is now, and the
commitment to accounts that are on file at their handles; where the accounts restore, that
of the first of them. -/
theorem stored_chain_verifies (h : (system B).Reachable s) :
    (∃ chain, SealChain.fromSeals s.tables.ledger s.tables.seals = .ok chain ∧ chain.seals = s.tables.seals ∧
      chain.verify = .ok ()) ∧
    ∀ x ∈ s.tables.seals, x.treeHead.size ≤ s.tables.log.length ∧
      x.treeHead = (MerkleLog.fromLeaves ((hashes s.tables.log).take x.treeHead.size)).head ∧
      ∀ r, AccountRegistry.fromRecords s.tables.accountRecords = .ok r →
        (r.bindingLog : MerkleLog H).headAt x.accounts.size = .ok x.accounts := by
  have hi := chained_of_reachable h
  constructor
  · obtain ⟨chain, hchain⟩ := hi.accepted
    obtain ⟨-, hseals, hverify, -⟩ := SealChain.fromSeals_ok hchain
    exact ⟨chain, hchain, hseals, hverify⟩
  · intro x hx
    obtain ⟨⟨hle, hroot⟩, r₀, hfiled, hx⟩ := hi.commits x hx
    refine ⟨hle, ?_, fun r hr => ?_⟩
    · have hlen : ((hashes s.tables.log).take x.treeHead.size).length = x.treeHead.size := by
        rw [List.length_take, hashes, List.length_map]
        exact min_eq_left hle
      rw [MerkleLog.head_eq, MerkleLog.leaves_fromLeaves, hlen, ← hroot]
    · rw [hx]
      exact headAt_stays (bindingLog_grows ((filed_fromRecords hr).2 r₀ hfiled)) (headAt_head _)

/-- Two clients read the same chain, and both go on to store a seal of March. -/
def bothSealMarch : List (Lbl Preimage cents) :=
  marchSale ++ [.append [soldInMarch]] ++ closeMarch ++ [.readCalendar 1 march.id, .readSpan 0, .readSpan 1, .readBalances 1,
    .readBalances 0, .readSeals 1, .readSeals 0, .readHead 0, .readHead 1, .readAccounts 1, .readAccounts 0, .commitSeal 1,
    .commitSeal 0]

def afterBoth : St Preimage cents := (LTS.exec (step .sqlite) (initial books 2) bothSealMarch).getD (initial books 2)

set_option maxRecDepth 10000 in
/-- Not vacuous: one of them is stored, and is a chain. -/
theorem one_seal_chains : (∃ chain, SealChain.fromSeals afterBoth.tables.ledger afterBoth.tables.seals = .ok chain ∧
    chain.seals.length = 1 ∧ chain.verify = .ok ()) ∧ ∀ x ∈ afterBoth.tables.seals, x.treeHead.size = 1 := by
  have hrun : (LTS.exec (step .sqlite) (initial books 2) bothSealMarch).isSome = true := by decide
  obtain ⟨⟨chain, hchain, hseals, hverify⟩, -⟩ := stored_chain_verifies
    (LTS.reachable_of_exec bothSealMarch ⟨books, 2, rfl⟩ (LTS.exec_getD hrun) : (system .sqlite).Reachable afterBoth)
  exact ⟨⟨chain, hchain, hseals ▸ (by decide : afterBoth.tables.seals.length = 1), hverify⟩, by decide⟩

end St

end DoubleEntry.L5
