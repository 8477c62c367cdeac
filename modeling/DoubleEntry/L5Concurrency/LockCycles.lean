import DoubleEntry.L4Store.EntryTable

/-!
# Locks of deferred appends on a limited account

A deferred append of Postgres takes two kinds of lock on a row of `accounts`. The
INSERT of a posting takes KEY SHARE, by its foreign key, and `check_limits` takes
FOR UPDATE if the account has a limit, after all postings of the entry are inserted.
Locks are held to the end of the transaction. KEY SHARE locks of several transactions
go together, a FOR UPDATE lock goes with no lock of another one.

Any number of transactions run their statements in any order (`Lbl`); one whose lock is
not granted waits. Their batches post to one account with a limit, and otherwise to
accounts without (`OnlyLimited`). Entries that are on file insert nothing, so a batch
stands for its new entries.

The second lock upgrades the first: two transactions that have both inserted wait for
each other when they check (`sales_deadlocked`). While an insert on the account finds no
other transaction holding a lock on its row (`Alone`), nobody waits for one who waits
(`no_deadlock`); and once two of them hold a lock on it, a cycle can be reached.

**Left out.** A transaction also waits at `INSERT .. ON CONFLICT` for another one that has
inserted its idempotency key, its identifier or its reversal and is still open. Such waits
are on an index and not on a row of `accounts`, and cycles through them are not looked at here.

**Results.**
* `holds_of_waits`: whoever is waited for has a lock on the row.
* `no_deadlock`: both directions, for any number of transactions.
* `sales_deadlocked`, `sales_in_turn`: two sales at a time, and one after the other.
-/
namespace DoubleEntry.L5.LockCycles

open DoubleEntry.Core DoubleEntry.L1 DoubleEntry.L3 DoubleEntry.L4

inductive Mode
  | keyShare
  | forUpdate
  deriving DecidableEq

def Mode.conflicts : Mode → Mode → Bool
  | .keyShare, .keyShare => false
  | _, _ => true

/-- The statements that lock a row of `accounts`. -/
inductive Stmt
  /-- `INSERT INTO postings` -/
  | insert (account : AccountId)
  /-- `SELECT balance_limit FROM accounts .. FOR UPDATE` -/
  | check (account : AccountId)
  deriving DecidableEq

section
variable {P : Scale} {H : Type}

/-- The loop of `check_limits`, with the keys checked so far. mirrors src/storage/postgres.rs:747-760 -/
def checks : List BalanceKey → List (Posting P) → List Stmt
  | _, [] => []
  | checked, posting :: postings =>
    if checked.contains posting.key then checks checked postings
    else .check (Backend.postgres.handle posting.account) :: checks (posting.key :: checked) postings

/-- Of one entry. mirrors src/storage/postgres.rs:681-715 -/
def statements (e : Entry H .balanced P) : List Stmt :=
  (e.postings.map fun p => .insert (Backend.postgres.handle p.account)) ++ checks [] e.postings

end

/-- An open transaction: its locks, and the statements it has not run. -/
structure Txn where
  held : List (AccountId × Mode)
  todo : List Stmt
  deriving DecidableEq

abbrev St := List Txn

def begin {H : Type} {P : Scale} (batch : List (Entry H .balanced P)) : Txn := ⟨[], batch.flatMap statements⟩

/-- `balance_limit <> 'unlimited'` -/
def limited (accounts : OrdMap AccountId Account) (x : AccountId) : Bool :=
  (accounts.get? x).any fun account => account.limit ≠ .unlimited

/-- The lock a statement asks for. -/
def Stmt.request (accounts : OrdMap AccountId Account) : Stmt → Option (AccountId × Mode)
  | .insert x => some (x, .keyShare)
  | .check x => if limited accounts x then some (x, .forUpdate) else none

def Txn.blocks (t : Txn) (r : AccountId × Mode) : Bool := t.held.any fun l => l.1 = r.1 && l.2.conflicts r.2

/-- No other transaction is in the way. -/
def granted (s : St) (i : Nat) (r : AccountId × Mode) : Bool := s.zipIdx.all fun e => e.2 = i || !e.1.blocks r

inductive Lbl
  | run (i : Nat)
  | commit (i : Nat)
  | abort (i : Nat)

/-- The next statement, with its lock granted. -/
def runNext (accounts : OrdMap AccountId Account) (s : St) (i : Nat) (t : Txn) : Option St :=
  match t.todo with
  | [] => none
  | stmt :: todo =>
    if (stmt.request accounts).all (granted s i) then
      some (s.set i ⟨(stmt.request accounts).toList ++ t.held, todo⟩)
    else none

/-- A transaction that has to wait has no step but `abort`. -/
def step (accounts : OrdMap AccountId Account) (s : St) : Lbl → Option St
  | .run i => s[i]?.bind (runNext accounts s i)
  | .commit i => s[i]?.bind fun t => if t.todo = [] then some (s.set i ⟨[], []⟩) else none
  | .abort i => s[i]?.map fun _ => s.set i ⟨[], []⟩

/-- Its only limited account is `a`. -/
def OnlyLimited {H : Type} {P : Scale} (accounts : OrdMap AccountId Account) (a : AccountId)
    (batch : List (Entry H .balanced P)) : Prop := ∀ e ∈ batch, ∀ p ∈ e.postings,
  limited accounts (Backend.postgres.handle p.account) = true → Backend.postgres.handle p.account = a

/-- Any transactions that post to `a`, and to accounts without a limit. -/
def appends (H : Type) (P : Scale) (accounts : OrdMap AccountId Account) (a : AccountId) : LTS St Lbl :=
  .ofFn (fun s => ∃ batches : List (List (Entry H .balanced P)),
    (∀ batch ∈ batches, OnlyLimited accounts a batch) ∧ s = batches.map begin) (step accounts)

/-! ## Waiting -/

/-- `i` asks for a lock that one of `j` is in the way of. -/
def Waits (accounts : OrdMap AccountId Account) (s : St) (i j : Nat) : Prop :=
  i ≠ j ∧ ∃ t u r, s[i]? = some t ∧ s[j]? = some u ∧ t.todo.head?.bind (Stmt.request accounts) = some r ∧ u.blocks r = true

/-- A cycle of transactions, each waiting for the next. -/
def Deadlocked (accounts : OrdMap AccountId Account) (s : St) : Prop := ∃ i, Relation.TransGen (Waits accounts s) i i

def Txn.holds (t : Txn) (x : AccountId) : Bool := t.held.any fun l => l.1 = x

/-- A posting to `a` is inserted while no other transaction has one. -/
def Alone (a : AccountId) (s : St) : Lbl → Prop
  | .run i => ∀ t ∈ s[i]?, t.todo.head? = some (.insert a) → (s.zipIdx.all fun e => e.2 = i || !e.1.holds a) = true
  | _ => True

instance (a : AccountId) (s : St) (l : Lbl) : Decidable (Alone a s l) :=
  match l with
  | .run i => inferInstanceAs (Decidable (∀ t ∈ s[i]?, t.todo.head? = some (.insert a) →
      (s.zipIdx.all fun e => e.2 = i || !e.1.holds a) = true))
  | .commit _ => .isTrue trivial
  | .abort _ => .isTrue trivial

variable {accounts : OrdMap AccountId Account} {a x : AccountId} {s u : St} {t : Txn} {i j : Nat} {l : Lbl}

theorem holds_iff : t.holds x = true ↔ ∃ m, (x, m) ∈ t.held := by
  simp only [Txn.holds, List.any_eq_true, decide_eq_true_iff]
  constructor
  · rintro ⟨⟨y, m⟩, hl, rfl⟩
    exact ⟨m, hl⟩
  · rintro ⟨m, hl⟩
    exact ⟨(x, m), hl, rfl⟩

theorem blocks_iff {r : AccountId × Mode} : t.blocks r = true ↔ ∃ m, (r.1, m) ∈ t.held ∧ m.conflicts r.2 = true := by
  simp only [Txn.blocks, List.any_eq_true, Bool.and_eq_true, decide_eq_true_iff]
  constructor
  · rintro ⟨⟨y, m⟩, hl, rfl, hm⟩
    exact ⟨m, hl, hm⟩
  · rintro ⟨m, hl, hm⟩
    exact ⟨(r.1, m), hl, rfl, hm⟩

theorem all_others_iff {f : Txn → Bool} : (s.zipIdx.all fun e => e.2 = i || !f e.1) = true ↔
    ∀ j u, j ≠ i → s[j]? = some u → f u = false := by
  simp only [List.all_eq_true, Bool.or_eq_true, decide_eq_true_iff, Bool.not_eq_true']
  constructor
  · intro h j u hne hu
    exact (h (u, j) (List.mem_zipIdx_iff_getElem?.2 hu)).resolve_left hne
  · intro h e he
    by_cases hne : e.2 = i
    · exact .inl hne
    · exact .inr (h e.2 e.1 hne (List.mem_zipIdx_iff_getElem?.1 he))

theorem granted_iff {r : AccountId × Mode} : granted s i r = true ↔
    ∀ j u, j ≠ i → s[j]? = some u → u.blocks r = false := all_others_iff (f := fun t => t.blocks r)

/-! ## One transaction -/

/-- Every check comes after an insert on its account, or the account is in `seen`. -/
def Covered : List AccountId → List Stmt → Prop
  | _, [] => True
  | seen, .insert x :: todo => Covered (x :: seen) todo
  | seen, .check x :: todo => x ∈ seen ∧ Covered seen todo

/-- Every insert comes before a check of its account. -/
def Answered : List Stmt → Prop
  | [] => True
  | .insert x :: todo => .check x ∈ todo ∧ Answered todo
  | .check _ :: todo => Answered todo

theorem Covered.mono {seen seen' : List AccountId} {todo : List Stmt} (h : Covered seen todo) (hs : seen ⊆ seen') :
    Covered seen' todo := by
  induction todo generalizing seen seen' with
  | nil => trivial
  | cons stmt todo ih =>
    cases stmt with
    | insert x => exact ih h (List.cons_subset_cons x hs)
    | check x => exact ⟨hs h.1, ih h.2 hs⟩

theorem Covered.append {seen : List AccountId} {l l' : List Stmt} (h : Covered seen l) (h' : Covered seen l') :
    Covered seen (l ++ l') := by
  induction l generalizing seen with
  | nil => exact h'
  | cons stmt l ih =>
    cases stmt with
    | insert x => exact ih h (h'.mono (List.subset_cons_self x seen))
    | check x => exact ⟨h.1, ih h.2 h'⟩

theorem Answered.append {l l' : List Stmt} (h : Answered l) (h' : Answered l') : Answered (l ++ l') := by
  induction l with
  | nil => exact h'
  | cons stmt l ih =>
    cases stmt with
    | insert x => exact ⟨List.mem_append_left _ h.1, ih h.2⟩
    | check x => exact ih h

section
variable {P : Scale} {H : Type}

theorem checks_cons (checked : List BalanceKey) (p : Posting P) (ps : List (Posting P)) :
    checks checked (p :: ps) = if p.key ∈ checked then checks checked ps
      else .check (Backend.postgres.handle p.account) :: checks (p.key :: checked) ps := by
  simp [checks]

theorem mem_checks {ps : List (Posting P)} {checked : List BalanceKey} {stmt : Stmt} (h : stmt ∈ checks checked ps) :
    ∃ p ∈ ps, stmt = .check (Backend.postgres.handle p.account) := by
  induction ps generalizing checked with
  | nil => exact absurd h List.not_mem_nil
  | cons p ps ih =>
    have later : ∀ {seen}, stmt ∈ checks seen ps →
        ∃ q ∈ p :: ps, stmt = .check (Backend.postgres.handle q.account) := fun hm => by
      obtain ⟨q, hq, he⟩ := ih hm
      exact ⟨q, List.mem_cons_of_mem _ hq, he⟩
    rw [checks_cons] at h
    split at h
    · exact later h
    · rcases List.mem_cons.1 h with rfl | h
      · exact ⟨p, List.mem_cons_self, rfl⟩
      · exact later h

/-- The account of every posting is checked, under its key or before. -/
theorem check_mem {ps : List (Posting P)} {checked : List BalanceKey} {p : Posting P} (hp : p ∈ ps)
    (hnew : p.key ∉ checked) : Stmt.check (Backend.postgres.handle p.account) ∈ checks checked ps := by
  induction ps generalizing checked with
  | nil => exact absurd hp List.not_mem_nil
  | cons q ps ih =>
    rw [checks_cons]
    by_cases hkey : p.key = q.key
    · have haccount : p.account = q.account := congrArg BalanceKey.account hkey
      rw [if_neg (hkey ▸ hnew), haccount]
      exact List.mem_cons_self
    · have hp : p ∈ ps := (List.mem_cons.1 hp).resolve_left fun e => hkey (e ▸ rfl)
      split
      · exact ih hp hnew
      · exact List.mem_cons_of_mem _ (ih hp fun hm => (List.mem_cons.1 hm).elim hkey hnew)

theorem covered_inserts {xs seen : List AccountId} {todo : List Stmt}
    (h : ∀ stmt ∈ todo, ∃ x, stmt = .check x ∧ (x ∈ xs ∨ x ∈ seen)) : Covered seen (xs.map .insert ++ todo) := by
  induction xs generalizing seen with
  | cons x xs ih =>
    refine ih fun stmt hstmt => ?_
    obtain ⟨y, he, hy⟩ := h stmt hstmt
    simp only [List.mem_cons] at hy ⊢
    exact ⟨y, he, by tauto⟩
  | nil =>
    induction todo with
    | nil => trivial
    | cons stmt todo ih =>
      obtain ⟨x, rfl, hx⟩ := h stmt List.mem_cons_self
      exact ⟨hx.resolve_left List.not_mem_nil, ih fun y hy => h y (List.mem_cons_of_mem _ hy)⟩

theorem answered_inserts {xs : List AccountId} {todo : List Stmt} (h : ∀ x ∈ xs, Stmt.check x ∈ todo)
    (hall : Answered todo) : Answered (xs.map .insert ++ todo) := by
  induction xs with
  | nil => exact hall
  | cons x xs ih =>
    exact ⟨List.mem_append_right _ (h x List.mem_cons_self), ih fun y hy => h y (List.mem_cons_of_mem _ hy)⟩

theorem answered_checks (ps : List (Posting P)) (checked : List BalanceKey) : Answered (checks checked ps) := by
  induction ps generalizing checked with
  | nil => trivial
  | cons p ps ih =>
    rw [checks_cons]
    split
    · exact ih checked
    · exact ih _

theorem covered_statements (e : Entry H .balanced P) : Covered [] (statements e) := by
  rw [statements, show (fun p : Posting P => Stmt.insert (Backend.postgres.handle p.account)) =
    Stmt.insert ∘ fun p => Backend.postgres.handle p.account from rfl, ← List.map_map]
  refine covered_inserts fun stmt hstmt => ?_
  obtain ⟨p, hp, rfl⟩ := mem_checks hstmt
  exact ⟨_, rfl, .inl (List.mem_map_of_mem hp)⟩

theorem answered_statements (e : Entry H .balanced P) : Answered (statements e) := by
  rw [statements, show (fun p : Posting P => Stmt.insert (Backend.postgres.handle p.account)) =
    Stmt.insert ∘ fun p => Backend.postgres.handle p.account from rfl, ← List.map_map]
  refine answered_inserts (fun x hx => ?_) (answered_checks _ _)
  obtain ⟨p, hp, rfl⟩ := List.mem_map.1 hx
  exact check_mem hp List.not_mem_nil

end

/-- What its statements come after, and what comes after them. -/
structure WellFormed (accounts : OrdMap AccountId Account) (a : AccountId) (t : Txn) : Prop where
  /-- It checks what it has inserted. -/
  covered : Covered (t.held.map Prod.fst) t.todo
  /-- What it inserts it will check. -/
  answered : Answered t.todo
  /-- What it has inserted it has checked, or will. -/
  owed : ∀ x, limited accounts x = true → t.holds x = true → (x, Mode.forUpdate) ∈ t.held ∨ Stmt.check x ∈ t.todo
  /-- Of limited accounts it checks `a` only. -/
  only : ∀ x, Stmt.check x ∈ t.todo → limited accounts x = true → x = a
  updates : ∀ x, (x, Mode.forUpdate) ∈ t.held → x = a

theorem wellFormed_nil : WellFormed accounts a ⟨[], []⟩ where
  covered := trivial
  answered := trivial
  owed _ _ h := by cases h
  only _ h := absurd h List.not_mem_nil
  updates _ h := absurd h List.not_mem_nil

theorem wellFormed_begin {H : Type} {P : Scale} {batch : List (Entry H .balanced P)} (h : OnlyLimited accounts a batch) :
    WellFormed accounts a (begin batch) where
  covered := by
    show Covered [] (batch.flatMap statements)
    clear h
    induction batch with
    | nil => trivial
    | cons e batch ih => exact (covered_statements e).append ih
  answered := by
    show Answered (batch.flatMap statements)
    clear h
    induction batch with
    | nil => trivial
    | cons e batch ih => exact (answered_statements e).append ih
  owed _ _ h := by cases h
  only x hx hlimited := by
    obtain ⟨e, he, hx⟩ := List.mem_flatMap.1 hx
    rcases List.mem_append.1 hx with hx | hx
    · obtain ⟨p, -, hp⟩ := List.mem_map.1 hx
      cases hp
    · obtain ⟨p, hp, hx⟩ := mem_checks hx
      cases hx
      exact h e he p hp hlimited
  updates _ h := absurd h List.not_mem_nil

/-- Its locks on other rows were there before. -/
theorem holds_of_ne {held : List (AccountId × Mode)} {todo todo' : List Stmt} {y : AccountId} {m : Mode} (hne : x ≠ y)
    (h : (⟨(y, m) :: held, todo⟩ : Txn).holds x = true) : (⟨held, todo'⟩ : Txn).holds x = true := by
  obtain ⟨m', hm⟩ := holds_iff.1 h
  exact holds_iff.2 ⟨m', (List.mem_cons.1 hm).resolve_left fun e => hne (congrArg Prod.fst e)⟩

theorem WellFormed.next {held : List (AccountId × Mode)} {stmt : Stmt} {todo : List Stmt}
    (h : WellFormed accounts a ⟨held, stmt :: todo⟩) :
    WellFormed accounts a ⟨(stmt.request accounts).toList ++ held, todo⟩ := by
  cases stmt with
  | insert y =>
    refine ⟨h.covered, h.answered.2, fun x hl hx => ?_, fun x hx => h.only x (List.mem_cons_of_mem _ hx), fun x hx => ?_⟩
    · by_cases hxy : x = y
      · subst hxy
        exact .inr h.answered.1
      · rcases h.owed x hl (holds_of_ne hxy hx) with hu | hc
        · exact .inl (List.mem_cons_of_mem _ hu)
        · exact .inr ((List.mem_cons.1 hc).resolve_left nofun)
    · exact h.updates x ((List.mem_cons.1 hx).resolve_left nofun)
  | check y =>
    have hy : limited accounts y = true → y = a := h.only y List.mem_cons_self
    by_cases hly : limited accounts y = true
    · have hrequest : (Stmt.check y).request accounts = some (y, .forUpdate) := if_pos hly
      rw [hrequest]
      refine ⟨h.covered.2.mono (List.subset_cons_self _ _), h.answered, fun x hl hx => ?_,
        fun x hx => h.only x (List.mem_cons_of_mem _ hx), fun x hx => ?_⟩
      · by_cases hxy : x = y
        · subst hxy
          exact .inl List.mem_cons_self
        · rcases h.owed x hl (holds_of_ne hxy hx) with hu | hc
          · exact .inl (List.mem_cons_of_mem _ hu)
          · exact .inr ((List.mem_cons.1 hc).resolve_left fun e => hxy (Stmt.check.inj e))
      · rcases List.mem_cons.1 hx with e | hx
        · obtain ⟨rfl, -⟩ := Prod.mk.inj e
          exact hy hly
        · exact h.updates x hx
    · have hrequest : (Stmt.check y).request accounts = none := if_neg hly
      rw [hrequest]
      refine ⟨h.covered.2, h.answered, fun x hl hx => ?_, fun x hx => h.only x (List.mem_cons_of_mem _ hx), h.updates⟩
      rcases h.owed x hl hx with hu | hc
      · exact .inl hu
      · exact .inr ((List.mem_cons.1 hc).resolve_left fun e => hly (Stmt.check.inj e ▸ hl))

/-! ## One step -/

theorem step_cases (st : step accounts s l = some u) : ∃ i t, s[i]? = some t ∧ (u = s.set i ⟨[], []⟩ ∨
    ∃ stmt todo, l = .run i ∧ t.todo = stmt :: todo ∧ (∀ r ∈ stmt.request accounts, granted s i r = true) ∧
      u = s.set i ⟨(stmt.request accounts).toList ++ t.held, todo⟩) := by
  cases l with
  | run i =>
    obtain ⟨t, ht, hrun⟩ := Option.bind_eq_some_iff.1 st
    refine ⟨i, t, ht, .inr ?_⟩
    unfold runNext at hrun
    cases htodo : t.todo with
    | nil => simp [htodo] at hrun
    | cons stmt todo =>
      simp only [htodo] at hrun
      split at hrun
      · rename_i hgranted
        refine ⟨stmt, todo, rfl, rfl, fun r hr => ?_, (Option.some.inj hrun).symm⟩
        rw [Option.mem_def.1 hr, Option.all_some] at hgranted
        exact hgranted
      · cases hrun
  | commit i =>
    obtain ⟨t, ht, hend⟩ := Option.bind_eq_some_iff.1 st
    refine ⟨i, t, ht, .inl ?_⟩
    split at hend
    · exact (Option.some.inj hend).symm
    · cases hend
  | abort i =>
    obtain ⟨t, ht, hend⟩ := Option.map_eq_some_iff.1 st
    exact ⟨i, t, ht, .inl hend.symm⟩

/-- The transactions after a step: the one that moved, and the others. -/
theorem getElem?_moved {t' : Txn} (h : (s.set i t')[j]? = some t) : (j = i ∧ t = t') ∨ (j ≠ i ∧ s[j]? = some t) := by
  rw [List.getElem?_set] at h
  split at h
  · rename_i he
    split at h
    · exact .inl ⟨he.symm, (Option.some.inj h).symm⟩
    · cases h
  · rename_i hne
    exact .inr ⟨Ne.symm hne, h⟩

theorem wellFormed_step (h : ∀ t ∈ s, WellFormed accounts a t) (st : step accounts s l = some u) :
    ∀ t ∈ u, WellFormed accounts a t := by
  intro v hv
  obtain ⟨i, t, ht, rfl | ⟨stmt, todo, -, htodo, -, rfl⟩⟩ := step_cases st
  · rcases List.mem_or_eq_of_mem_set hv with hv | rfl
    · exact h v hv
    · exact wellFormed_nil
  · rcases List.mem_or_eq_of_mem_set hv with hv | rfl
    · exact h v hv
    · have hwf := h t (List.mem_of_getElem? ht)
      obtain ⟨held, todo'⟩ := t
      obtain rfl : todo' = stmt :: todo := htodo
      exact hwf.next

theorem wellFormed_of_reachable {H : Type} {P : Scale} (h : (appends H P accounts a).Reachable s) :
    ∀ t ∈ s, WellFormed accounts a t := by
  refine LTS.Inductive.reachable (T := appends H P accounts a) (I := fun s => ∀ t ∈ s, WellFormed accounts a t) ⟨?_, ?_⟩ h
  · rintro _ ⟨batches, hbatches, rfl⟩ t ht
    obtain ⟨batch, hb, rfl⟩ := List.mem_map.1 ht
    exact wellFormed_begin (hbatches batch hb)
  · exact fun s l u hs st => wellFormed_step hs st

/-! ## One at a time -/

/-- At most one transaction has a lock on the row of `a`. -/
def Single (a : AccountId) (s : St) : Prop := ∀ (i j : Nat) (t u : Txn), i ≠ j → s[i]? = some t → s[j]? = some u →
  t.holds a = true → u.holds a = false

theorem single_step (hwf : ∀ t ∈ s, WellFormed accounts a t) (h : Single a s) (st : step accounts s l = some u)
    (halone : Alone a s l) : Single a u := by
  obtain ⟨i, t, ht, rfl | ⟨stmt, todo, rfl, htodo, -, rfl⟩⟩ := step_cases st
  · intro j k v w hjk hv hw hheld
    rcases getElem?_moved hv with ⟨rfl, rfl⟩ | ⟨hj, hold⟩
    · cases hheld
    · rcases getElem?_moved hw with ⟨rfl, rfl⟩ | ⟨hk, hw⟩
      · rfl
      · exact h j k v w hjk hold hw hheld
  · -- the one that ran holds `a` now only if it did before, or nobody else does
    have hmoved : (⟨(stmt.request accounts).toList ++ t.held, todo⟩ : Txn).holds a = true →
        ∀ k w, k ≠ i → s[k]? = some w → w.holds a = false := by
      intro hheld k w hk hw
      by_cases hbefore : t.holds a = true
      · exact h i k t w (Ne.symm hk) ht hw hbefore
      · cases stmt with
        | insert y =>
          by_cases hay : a = y
          · subst hay
            exact (all_others_iff (f := fun t => t.holds a)).1 (halone t ht (by rw [htodo]; rfl)) k w hk hw
          · have hold : (⟨t.held, t.todo⟩ : Txn).holds a = true := holds_of_ne hay hheld
            exact absurd hold hbefore
        | check y =>
          by_cases hly : limited accounts y = true
          · -- a limited account is checked after an insert on it
            have hwft := hwf t (List.mem_of_getElem? ht)
            have hay : y = a := hwft.only y (by rw [htodo]; exact List.mem_cons_self) hly
            have hcovered := hwft.covered
            rw [htodo] at hcovered
            obtain ⟨l, hl, hla⟩ := List.mem_map.1 hcovered.1
            exact absurd (holds_iff.2 ⟨l.2, by rw [← hay, ← hla]; exact hl⟩) hbefore
          · have hrequest : (Stmt.check y).request accounts = none := if_neg hly
            rw [hrequest] at hheld
            exact absurd hheld hbefore
    intro j k v w hjk hv hw hheld
    rcases getElem?_moved hv with ⟨rfl, rfl⟩ | ⟨hj, hold⟩
    · rcases getElem?_moved hw with ⟨rfl, -⟩ | ⟨hk, hw⟩
      · exact absurd rfl hjk
      · exact hmoved hheld k w hk hw
    · rcases getElem?_moved hw with ⟨rfl, rfl⟩ | ⟨hk, hw⟩
      · by_contra hnow
        have hother := hmoved (by simpa using hnow) j v hj hold
        rw [hheld] at hother
        cases hother
      · exact h j k v w hjk hold hw hheld

/-- Whoever is waited for has a lock on the row of `a`. -/
theorem holds_of_waits (hwf : ∀ t ∈ s, WellFormed accounts a t) (h : Waits accounts s i j) :
    ∃ u, s[j]? = some u ∧ u.holds a = true := by
  obtain ⟨-, t, u, r, ht, hu, hr, hblocks⟩ := h
  have hwft := hwf t (List.mem_of_getElem? ht)
  have hwfu := hwf u (List.mem_of_getElem? hu)
  obtain ⟨m, hm, hconflict⟩ := blocks_iff.1 hblocks
  obtain ⟨stmt, hstmt, hrequest⟩ := Option.bind_eq_some_iff.1 hr
  have hmem : stmt ∈ t.todo := List.mem_of_head? hstmt
  have hra : r.1 = a := by
    cases stmt with
    | insert y =>
      cases hrequest
      cases m with
      | keyShare => cases hconflict
      | forUpdate => exact hwfu.updates y hm
    | check y =>
      by_cases hly : limited accounts y = true
      · rw [Stmt.request, if_pos hly] at hrequest
        cases hrequest
        exact hwft.only y hmem hly
      · rw [Stmt.request, if_neg hly] at hrequest
        cases hrequest
  exact ⟨u, hu, holds_iff.2 ⟨m, hra ▸ hm⟩⟩

theorem not_deadlocked (hwf : ∀ t ∈ s, WellFormed accounts a t) (h : Single a s) : ¬ Deadlocked accounts s := by
  rintro ⟨i, hcycle⟩
  obtain ⟨j, hij, -⟩ := Relation.TransGen.head'_iff.1 hcycle
  obtain ⟨k, -, hki⟩ := Relation.TransGen.tail'_iff.1 hcycle
  obtain ⟨u, hu, hheld⟩ := holds_of_waits hwf hij
  obtain ⟨t, ht, hheld'⟩ := holds_of_waits hwf hki
  rw [h i j t u hij.1 ht hu hheld'] at hheld
  cases hheld

/-! ## Two at a time -/

/-- The locks of two transactions go together. -/
def Compatible (s : St) : Prop := ∀ (i j : Nat) (t u : Txn) (x : AccountId) (m m' : Mode), i ≠ j → s[i]? = some t →
  s[j]? = some u → (x, m) ∈ t.held → (x, m') ∈ u.held → m.conflicts m' = false

theorem conflicts_comm (m m' : Mode) : m.conflicts m' = m'.conflicts m := by cases m <;> cases m' <;> rfl

theorem compatible_step (h : Compatible s) (st : step accounts s l = some u) : Compatible u := by
  obtain ⟨i, t, ht, rfl | ⟨stmt, todo, rfl, htodo, hgranted, rfl⟩⟩ := step_cases st
  · intro j k v w x m m' hjk hv hw hm hm'
    rcases getElem?_moved hv with ⟨rfl, rfl⟩ | ⟨hj, hold⟩
    · cases hm
    · rcases getElem?_moved hw with ⟨rfl, rfl⟩ | ⟨hk, hw⟩
      · cases hm'
      · exact h j k v w x m m' hjk hold hw hm hm'
  · have hmoved : ∀ k w x m m', k ≠ i → s[k]? = some w → (x, m) ∈ (stmt.request accounts).toList ++ t.held →
        (x, m') ∈ w.held → m.conflicts m' = false := by
      intro k w x m m' hk hw hm hm'
      rcases List.mem_append.1 hm with hm | hm
      · -- the lock it was granted
        have hr := Option.mem_toList.1 hm
        have hfree := granted_iff.1 (hgranted _ hr) k w hk hw
        by_contra hconflict
        rw [conflicts_comm] at hconflict
        rw [blocks_iff.2 ⟨m', hm', by simpa using hconflict⟩] at hfree
        cases hfree
      · exact h i k t w x m m' (Ne.symm hk) ht hw hm hm'
    intro j k v w x m m' hjk hv hw hm hm'
    rcases getElem?_moved hv with ⟨rfl, rfl⟩ | ⟨hj, hold⟩
    · rcases getElem?_moved hw with ⟨rfl, -⟩ | ⟨hk, hw⟩
      · exact absurd rfl hjk
      · exact hmoved k w x m m' hk hw hm hm'
    · rcases getElem?_moved hw with ⟨rfl, rfl⟩ | ⟨hk, hw⟩
      · rw [conflicts_comm]
        exact hmoved j v x m' m hj hold hm' hm
      · exact h j k v w x m m' hjk hold hw hm hm'

theorem compatible_of_reachable {H : Type} {P : Scale} (h : (appends H P accounts a).Reachable s) : Compatible s := by
  refine LTS.Inductive.reachable (T := appends H P accounts a) ⟨?_, fun s l u hs st => compatible_step hs st⟩ h
  rintro _ ⟨batches, -, rfl⟩ i j t u x m m' - ht - hm
  obtain ⟨batch, -, rfl⟩ := List.mem_map.1 (List.mem_of_getElem? ht)
  cases hm

/-- No row is locked for an update. -/
def NoUpdate (s : St) : Prop := ∀ t ∈ s, ∀ x, (x, Mode.forUpdate) ∉ t.held

/-- Two locks on the row of `a` are shared ones. -/
theorem noUpdate_of_two (hwf : ∀ t ∈ s, WellFormed accounts a t) (hc : Compatible s) {u : Txn} (hne : i ≠ j)
    (ht : s[i]? = some t) (hu : s[j]? = some u) (hta : t.holds a = true) (hua : u.holds a = true) : NoUpdate s := by
  intro v hv x hx
  obtain ⟨k, hk, hget⟩ := List.getElem_of_mem hv
  have hvk : s[k]? = some v := List.getElem?_eq_some_iff.2 ⟨hk, hget⟩
  obtain rfl : x = a := (hwf v hv).updates x hx
  obtain ⟨m, hm⟩ := holds_iff.1 hta
  obtain ⟨m', hm'⟩ := holds_iff.1 hua
  by_cases hki : k = i
  · have hconflict := hc k j v u x .forUpdate m' (hki ▸ hne) hvk hu hx hm'
    cases m' <;> cases hconflict
  · have hconflict := hc k i v t x .forUpdate m hki hvk ht hx hm
    cases m <;> cases hconflict

/-- Up to its check of `a` a transaction waits for nobody, where no row is locked for an update. -/
theorem run_to_check {pre todo : List Stmt} (hpre : Stmt.check a ∉ pre) : ∀ {s : St} {t : Txn}, s[i]? = some t →
    t.todo = pre ++ .check a :: todo → NoUpdate s → (∀ x, Stmt.check x ∈ pre → limited accounts x = true → x = a) →
    ∃ ls held, (LTS.ofFn (fun _ => True) (step accounts)).Run s ls (s.set i ⟨held, .check a :: todo⟩) ∧
      t.held ⊆ held ∧ NoUpdate (s.set i ⟨held, .check a :: todo⟩) := by
  induction pre with
  | nil =>
    intro s t ht htodo hno _
    obtain ⟨hi, hget⟩ := List.getElem?_eq_some_iff.1 ht
    have hsame : s.set i ⟨t.held, .check a :: todo⟩ = s := by
      rw [show (⟨t.held, .check a :: todo⟩ : Txn) = s[i] by rw [hget, ← List.nil_append (.check a :: todo), ← htodo],
        List.set_getElem_self]
    exact ⟨[], t.held, by rw [hsame]; exact .nil s, List.Subset.refl _, by rw [hsame]; exact hno⟩
  | cons stmt pre ih =>
    intro s t ht htodo hno honly
    obtain ⟨hi, hget⟩ := List.getElem?_eq_some_iff.1 ht
    have hstmt : ∀ r ∈ stmt.request accounts, r.2 = .keyShare := by
      intro r hr
      cases stmt with
      | insert y => cases hr; rfl
      | check y =>
        by_cases hly : limited accounts y = true
        · obtain rfl := honly y List.mem_cons_self hly
          exact absurd List.mem_cons_self hpre
        · rw [Stmt.request, if_neg hly] at hr
          cases hr
    have hgranted : (stmt.request accounts).all (granted s i) = true := by
      cases hr : stmt.request accounts with
      | none => rfl
      | some r =>
        rw [Option.all_some, granted_iff]
        intro j u _ hu
        rw [Bool.eq_false_iff, Ne, blocks_iff, hstmt r hr]
        rintro ⟨m, hm, hconflict⟩
        cases m with
        | keyShare => cases hconflict
        | forUpdate => exact hno u (List.mem_of_getElem? hu) _ hm
    have hstep : step accounts s (.run i) =
        some (s.set i ⟨(stmt.request accounts).toList ++ t.held, pre ++ .check a :: todo⟩) := by
      simp only [step, ht, Option.bind_some, runNext, htodo, List.cons_append, hgranted, if_true]
    have hno' : NoUpdate (s.set i ⟨(stmt.request accounts).toList ++ t.held, pre ++ .check a :: todo⟩) := by
      intro v hv x hx
      rcases List.mem_or_eq_of_mem_set hv with hv | rfl
      · exact hno v hv x hx
      · rcases List.mem_append.1 hx with hx | hx
        · cases hstmt _ (Option.mem_toList.1 hx)
        · exact hno t (List.mem_of_getElem? ht) x hx
    obtain ⟨ls, held, hrun, hsub, hno''⟩ := ih (fun h => hpre (List.mem_cons_of_mem _ h))
      (s := s.set i ⟨(stmt.request accounts).toList ++ t.held, pre ++ .check a :: todo⟩)
      (List.getElem?_set_self hi) rfl hno' fun x hx => honly x (List.mem_cons_of_mem _ hx)
    rw [List.set_set] at hrun hno''
    exact ⟨.run i :: ls, held, .cons hstep hrun, fun e he => hsub (List.mem_append_right _ he), hno''⟩

/-- Two transactions that share the row, each about to check it. -/
theorem deadlocked_of_checks {u : Txn} {todo todo' : List Stmt} (hl : limited accounts a = true) (hne : i ≠ j)
    (ht : s[i]? = some t) (hu : s[j]? = some u) (htodo : t.todo = .check a :: todo) (hutodo : u.todo = .check a :: todo')
    (hta : t.holds a = true) (hua : u.holds a = true) : Deadlocked accounts s := by
  have hwaits : ∀ {i j : Nat} {t u : Txn} {todo : List Stmt}, i ≠ j → s[i]? = some t → s[j]? = some u →
      t.todo = .check a :: todo → u.holds a = true → Waits accounts s i j := by
    intro i j t u todo hne ht hu htodo hua
    obtain ⟨m, hm⟩ := holds_iff.1 hua
    refine ⟨hne, t, u, (a, .forUpdate), ht, hu, by simp [htodo, Stmt.request, hl], blocks_iff.2 ⟨m, hm, ?_⟩⟩
    cases m <;> rfl
  exact ⟨i, .tail (.single (hwaits hne ht hu htodo hua)) (hwaits hne.symm hu ht hutodo hta)⟩

/-- Two transactions with a lock on the row can end up waiting for each other. -/
theorem reaches_deadlock (hwf : ∀ t ∈ s, WellFormed accounts a t) (hc : Compatible s) (hl : limited accounts a = true)
    {u : Txn} (hne : i ≠ j) (ht : s[i]? = some t) (hu : s[j]? = some u) (hta : t.holds a = true)
    (hua : u.holds a = true) :
    ∃ ls v, (LTS.ofFn (fun _ => True) (step accounts)).Run s ls v ∧ Deadlocked accounts v := by
  have hno := noUpdate_of_two hwf hc hne ht hu hta hua
  have hnext : ∀ {t : Txn}, t ∈ s → t.holds a = true → ∃ pre todo, t.todo = pre ++ .check a :: todo ∧ Stmt.check a ∉ pre ∧
      ∀ x, Stmt.check x ∈ pre → limited accounts x = true → x = a := by
    intro t ht hta
    have howed := ((hwf t ht).owed a hl hta).resolve_left (hno t ht a)
    obtain ⟨pre, todo, htodo, hpre⟩ := List.eq_append_cons_of_mem howed
    exact ⟨pre, todo, htodo, hpre, fun x hx => (hwf t ht).only x (by rw [htodo]; exact List.mem_append_left _ hx)⟩
  obtain ⟨pre, todo, htodo, hpre, honly⟩ := hnext (List.mem_of_getElem? ht) hta
  obtain ⟨pre', todo', hutodo, hpre', honly'⟩ := hnext (List.mem_of_getElem? hu) hua
  obtain ⟨hi, -⟩ := List.getElem?_eq_some_iff.1 ht
  obtain ⟨hj, -⟩ := List.getElem?_eq_some_iff.1 hu
  -- first the one, then the other
  obtain ⟨ls, held, hrun, hsub, hno₁⟩ := run_to_check hpre ht htodo hno honly
  have hu₁ : (s.set i ⟨held, .check a :: todo⟩)[j]? = some u := by rw [List.getElem?_set_ne hne, hu]
  obtain ⟨ms, held', hrun', hsub', -⟩ := run_to_check hpre' hu₁ hutodo hno₁ honly'
  have hholds : ∀ {t : Txn} {held todo}, t.holds a = true → t.held ⊆ held → (⟨held, todo⟩ : Txn).holds a = true :=
    fun h hsub => by
      obtain ⟨m, hm⟩ := holds_iff.1 h
      exact holds_iff.2 ⟨m, hsub hm⟩
  have hfirst : ((s.set i ⟨held, .check a :: todo⟩).set j ⟨held', .check a :: todo'⟩)[i]? =
      some ⟨held, .check a :: todo⟩ := by rw [List.getElem?_set_ne hne.symm, List.getElem?_set_self hi]
  have hsecond : ((s.set i ⟨held, .check a :: todo⟩).set j ⟨held', .check a :: todo'⟩)[j]? =
      some ⟨held', .check a :: todo'⟩ := List.getElem?_set_self (by rwa [List.length_set])
  exact ⟨ls ++ ms, _, hrun.append hrun',
    deadlocked_of_checks hl hne hfirst hsecond rfl rfl (hholds hta hsub) (hholds hua hsub')⟩

/-! ## The result -/

theorem single_of_reachable {H : Type} {P : Scale} (h : ((appends H P accounts a).restrict (Alone a)).Reachable s) :
    (∀ t ∈ s, WellFormed accounts a t) ∧ Single a s := by
  refine LTS.Inductive.reachable (T := (appends H P accounts a).restrict (Alone a))
    (I := fun s => (∀ t ∈ s, WellFormed accounts a t) ∧ Single a s) ⟨?_, ?_⟩ h
  · intro s hs
    refine ⟨wellFormed_of_reachable (.of_init hs), ?_⟩
    obtain ⟨batches, -, rfl⟩ := hs
    intro i j t u _ ht _ hheld
    obtain ⟨batch, -, rfl⟩ := List.mem_map.1 (List.mem_of_getElem? ht)
    cases hheld
  · intro s l u ⟨hwf, hs⟩ st
    obtain ⟨st, halone⟩ := LTS.restrict_step.1 st
    exact ⟨wellFormed_step hwf st, single_step hwf hs st halone⟩

/-- **No cycle while one at a time.** In every run whose inserts all find the row of `a`
without a lock of another transaction there is no cycle; and once two transactions have a
lock on it, if it is limited, statements of theirs lead to one. -/
theorem no_deadlock (H : Type) (P : Scale) (accounts : OrdMap AccountId Account) (a : AccountId) (s : St) :
    (((appends H P accounts a).restrict (Alone a)).Reachable s → ¬ Deadlocked accounts s) ∧
    ∀ (i j : Nat) (t u : Txn), (appends H P accounts a).Reachable s → limited accounts a = true → i ≠ j → s[i]? = some t →
      s[j]? = some u → t.holds a = true → u.holds a = true →
      ∃ ls v, (appends H P accounts a).Run s ls v ∧ Deadlocked accounts v := by
  constructor
  · intro h
    obtain ⟨hwf, hs⟩ := single_of_reachable h
    exact not_deadlocked hwf hs
  · intro i j t u h hl hne ht hu hta hua
    obtain ⟨ls, v, hrun, hv⟩ := reaches_deadlock (wellFormed_of_reachable h) (compatible_of_reachable h) hl hne ht hu hta hua
    exact ⟨ls, v, hrun.ofFn, hv⟩

/-! ## Two sales -/

/-- The cash account must not be overdrawn. -/
def tills : OrdMap AccountId Account :=
  (OrdMap.empty.insert cashId { cash with limit := .noCreditBalance }).insert salesId sales

/-- Two clients, a sale each. -/
def twoSales : St := [begin [saleOfMarch.withState .balanced], begin [saleOfApril.withState .balanced]]

theorem twoSales_init : ∃ batches : List (List (Entry Preimage .balanced cents)),
    (∀ batch ∈ batches, OnlyLimited tills cashId batch) ∧ twoSales = batches.map begin := by
  refine ⟨[[saleOfMarch.withState .balanced], [saleOfApril.withState .balanced]], ?_, rfl⟩
  have honly : ∀ e ∈ [saleOfMarch.withState .balanced, saleOfApril.withState .balanced], ∀ p ∈ e.postings,
      limited tills (Backend.postgres.handle p.account) = true → Backend.postgres.handle p.account = cashId := by decide
  intro batch hbatch e he
  refine honly e ?_
  rcases List.mem_pair.1 hbatch with rfl | rfl
  · simp [List.mem_singleton.1 he]
  · simp [List.mem_singleton.1 he]

def afterRuns (ls : List Lbl) : St := (LTS.exec (step tills) twoSales ls).getD twoSales

/-- **Two sales wait for each other.** Both insert their postings, then both check the
cash account. -/
theorem sales_deadlocked : (appends Preimage cents tills cashId).Reachable (afterRuns [.run 0, .run 0, .run 1, .run 1]) ∧
    Deadlocked tills (afterRuns [.run 0, .run 0, .run 1, .run 1]) := by
  refine ⟨LTS.reachable_of_exec _ twoSales_init (LTS.exec_getD (by decide)), ?_⟩
  exact deadlocked_of_checks (a := cashId) (i := 0) (j := 1) (by decide) (by decide) rfl rfl rfl rfl (by decide) (by decide)

/-- Not vacuous: the second sale begins when the first one has ended. -/
theorem sales_in_turn : ¬ Deadlocked tills
    (afterRuns [.run 0, .run 0, .run 0, .run 0, .commit 0, .run 1, .run 1, .run 1]) :=
  (no_deadlock Preimage cents tills cashId _).1 (LTS.reachable_restrict_of_exec twoSales_init (by decide))

end DoubleEntry.L5.LockCycles
