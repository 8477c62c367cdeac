import DoubleEntry.L1Values.Date
import DoubleEntry.L2Merkle.Log
import DoubleEntry.L3Ledger.Balance

/-!
# Accounts and the account registry

An account is a validated path; the registry issues handles in registration
order and never moves a path to another handle. Closing, reopening and limiting
an account change master data only. `commitment` is the Merkle head over the
handle-to-path bindings, so it depends on the paths alone (`Grows`): a binding
proof at an earlier size still verifies against the head taken then
(`proveBindingAt_verifies`).

A registry carries the proof that its handles fit in 32 bits.

**Results.**
* `Grows.paths`: a registry that grew has the paths of the first handles.
* `proveBindingAt_none`: a handle that was not issued by then has no proof.
* `proveBindingAt_verifies`: any other one has, and it verifies against the head of that size.
-/
namespace DoubleEntry.L3

open DoubleEntry.Core DoubleEntry.L1 DoubleEntry.L2

/-! ## Paths -/

/-- mirrors src/account.rs:34-40 -/
def maxSegmentLen : Nat := 64
def maxDepth : Nat := 16

/-- The variants of `AccountError` that the checks of a path give.
mirrors src/account.rs:57-82 -/
inductive PathError where
  | empty
  | emptySegment (position : Nat)
  | segmentTooLong (position : Nat)
  | tooDeep
  | controlCharacter (position : Nat)
  deriving DecidableEq, Repr

/-- mirrors src/account.rs:168-178 -/
def checkSegment (position : Nat) (seg : String) : Except PathError Unit :=
  if seg.toList.isEmpty then .error (.emptySegment position)
  else if maxSegmentLen < seg.toList.length then .error (.segmentTooLong position)
  else if seg.toList.any isControl then .error (.controlCharacter position)
  else .ok ()

/-- The first segment that is refused. -/
def checkSegments : Nat → List String → Except PathError Unit
  | _, [] => .ok ()
  | position, seg :: raw =>
    match checkSegment position seg with
    | .error e => .error e
    | .ok () => checkSegments (position + 1) raw

/-- mirrors src/account.rs:162-179 -/
def AccountPath.check (raw : List String) : Except PathError Unit :=
  if raw.isEmpty then .error .empty
  else if maxDepth < raw.length then .error .tooDeep
  else checkSegments 0 raw

/-- mirrors src/account.rs:124-127 -/
structure AccountPath where
  segments : List String
  checked : AccountPath.check segments = .ok ()

theorem checkSegments_take {raw : List String} {n i : Nat} (h : checkSegments i raw = .ok ()) :
    checkSegments i (raw.take n) = .ok () := by
  induction raw generalizing n i with
  | nil => rwa [List.take_nil]
  | cons seg raw ih =>
    cases n with
    | zero => rfl
    | succ n =>
      simp only [checkSegments] at h
      split at h
      · cases h
      · rename_i hs
        simp only [List.take_succ_cons, checkSegments, hs]
        exact ih h

namespace AccountPath

/-- mirrors src/account.rs:152-180 -/
def fromSegments (raw : List String) : Except PathError AccountPath :=
  match h : check raw with
  | .ok () => .ok ⟨raw, h⟩
  | .error e => .error e

instance : LinearOrder AccountPath :=
  LinearOrder.lift' segments fun ⟨_, _⟩ ⟨_, _⟩ h => by cases h; rfl

theorem check_take {raw : List String} {n : Nat} (h : check raw = .ok ()) (hn : 0 < n) :
    check (raw.take n) = .ok () := by
  unfold check at h ⊢
  split at h
  · cases h
  · rename_i hne
    split at h
    · cases h
    · rename_i hlen
      have hpos : raw ≠ [] := by simpa using hne
      have h1 : 0 < raw.length := List.length_pos_of_ne_nil hpos
      have hlen' : (raw.take n).length = min n raw.length := List.length_take
      rw [if_neg (by rw [List.isEmpty_iff_length_eq_zero]; omega), if_neg (by omega)]
      exact checkSegments_take h

/-- mirrors src/account.rs:196-203 -/
def parent (p : AccountPath) : Option AccountPath :=
  if h : p.segments.length ≤ 1 then none
  else some ⟨p.segments.take (p.segments.length - 1), check_take p.checked (by omega)⟩

def ancestorsLoop : Nat → Option AccountPath → List AccountPath → List AccountPath
  | 0, _, out => out
  | _, none, out => out
  | fuel + 1, some p, out => ancestorsLoop fuel p.parent (p :: out)

/-- Outermost first. mirrors src/account.rs:206-215 -/
def ancestors (p : AccountPath) : List AccountPath := ancestorsLoop p.segments.length p.parent []

/-- mirrors src/account.rs:219-227 -/
def isUnder (p other : AccountPath) : Bool :=
  if p.segments.length < other.segments.length then false
  else (p.segments.zip other.segments).all fun e => e.1 = e.2

/-- mirrors src/account.rs:236-242 -/
instance : Canonical AccountPath := ⟨fun p => writeSeq writeStr p.segments⟩

end AccountPath

/-! ## Accounts -/

/-- mirrors src/account.rs:272-283 -/
inductive AccountKind
  | asset
  | liability
  | equity
  | income
  | expense
  deriving DecidableEq, Repr

/-- mirrors src/account.rs:327-341 -/
inductive BalanceLimit
  | unlimited
  | noCreditBalance
  | noDebitBalance
  deriving DecidableEq, Repr

/-- mirrors src/account.rs:351-357 -/
def BalanceLimit.permits {P : Scale} (limit : BalanceLimit) (balance : Balance P) : Bool :=
  match limit with
  | .unlimited => true
  | .noCreditBalance => balance.credits ≤ balance.debits
  | .noDebitBalance => balance.debits ≤ balance.credits

/-- mirrors src/account.rs:420-431 -/
structure Account where
  path : AccountPath
  kind : Option AccountKind
  openedOn : Date
  closedOn : Option Date
  limit : BalanceLimit
  deriving DecidableEq

namespace Account

/-- mirrors src/account.rs:437-445 -/
def new (path : AccountPath) (openedOn : Date) : Account := ⟨path, none, openedOn, none, .unlimited⟩

/-- mirrors src/account.rs:470-472 -/
def isOpenOn (a : Account) (date : Date) : Bool := a.openedOn ≤ date && a.closedOn.all (date ≤ ·)

/-- The closing date, if it precedes the opening date. -/
def closedEarly (a : Account) : Option Date := a.closedOn.filter (· < a.openedOn)

end Account

/-- mirrors src/account.rs:497-501 -/
def encodeDate (d : Date) : Bytes := writeI32 d.year ++ writeU8 d.month ++ writeU8 d.day

/-- mirrors src/account.rs:510-517 -/
structure AccountRecord where
  id : AccountId
  account : Account
  deriving DecidableEq

/-- mirrors src/account.rs:47-120 -/
inductive AccountError where
  | path (e : PathError)
  | alreadyRegistered (path : AccountPath)
  | unknownAccount (id : AccountId)
  | notDense (expected found : Nat)
  | registryFull
  | closedBeforeOpened (path : AccountPath) (opened closed : Date)
  deriving DecidableEq

/-! ## Bindings -/

section
variable {H : Type} [Blake3 H]

/-- The leaf of one handle-to-path binding. mirrors src/account.rs:549-554 -/
def accountBindingLeaf (id : AccountId) (path : AccountPath) : H :=
  tagged Tag.accountBindingV1 (writeU32 id.index ++ Canonical.encode path)

/-- `u32::try_from(i).unwrap_or(u32::MAX)` -/
def AccountId.ofPosition (i : Nat) : AccountId :=
  if h : i < 2 ^ 32 then ⟨i, h⟩ else ⟨2 ^ 32 - 1, by omega⟩

theorem AccountId.ofPosition_index (id : AccountId) : ofPosition id.index = id := by
  rw [ofPosition, dif_pos id.fits]

/-- The binding leaves of a list of accounts, in handle order. mirrors src/account.rs:914-927 -/
def bindingLeaves (accounts : List Account) : List H :=
  (accounts.map Account.path).zipIdx.map fun e => accountBindingLeaf (.ofPosition e.2) e.1

theorem length_bindingLeaves (accounts : List Account) :
    (bindingLeaves accounts : List H).length = accounts.length := by simp [bindingLeaves]

theorem getElem?_bindingLeaves {accounts : List Account} {id : AccountId} {a : Account}
    (h : accounts[id.index]? = some a) :
    (bindingLeaves accounts : List H)[id.index]? = some (accountBindingLeaf id a.path) := by
  simp [bindingLeaves, h, AccountId.ofPosition_index]

end

/-- mirrors src/account.rs:577-584 -/
structure AccountBindingProof (H : Type) where
  id : AccountId
  path : AccountPath
  proof : InclusionProof H

/-- The handle is the leaf index. mirrors src/account.rs:604-612 -/
def AccountBindingProof.verify {H : Type} [Blake3 H] [DecidableEq H] (p : AccountBindingProof H)
    (accounts : TreeHead H) : Bool :=
  decide (p.proof.leafIndex = p.id.index) && p.proof.verify (accountBindingLeaf p.id p.path) accounts

/-! ## The registry -/

/-- mirrors src/account.rs:620-625 -/
structure AccountRegistry where
  accounts : List Account
  index : OrdMap AccountPath AccountId
  childCount : List Nat
  bounded : accounts.length ≤ 2 ^ 32

namespace AccountRegistry

/-- mirrors src/account.rs:630-632 -/
def new : AccountRegistry := ⟨[], .empty, [], by decide⟩

/-- mirrors src/account.rs:723-725 -/
def len (r : AccountRegistry) : Nat := r.accounts.length

/-- mirrors src/account.rs:711-713 -/
def get (r : AccountRegistry) (id : AccountId) : Option Account := r.accounts[id.index]?

/-- mirrors src/account.rs:705-707 -/
def idOf (r : AccountRegistry) (path : AccountPath) : Option AccountId := r.index.get? path

/-- mirrors src/account.rs:717-719 -/
def isLeaf (r : AccountRegistry) (id : AccountId) : Bool := (r.childCount[id.index]?).getD 0 = 0

/-- mirrors src/account.rs:792-794 -/
def limitOf (r : AccountRegistry) (id : AccountId) : BalanceLimit := (r.get id).elim .unlimited (·.limit)

def u32Max : Nat := 2 ^ 32 - 1

/-- The strict descendants of `pre` in the index. mirrors src/account.rs:684-692 -/
def descendantRange (r : AccountRegistry) (pre : AccountPath) : List (AccountPath × AccountId) :=
  ((r.index.atLeast pre).dropWhile fun e => e.1 = pre).takeWhile fun e => e.1.isUnder pre

/-- One more child for a registered ancestor. mirrors src/account.rs:661-667 -/
def countChild (r : AccountRegistry) (childCount : List Nat) (ancestor : AccountPath) : List Nat :=
  match r.index.get? ancestor with
  | some parent => childCount.modify parent.index fun count => min (count + 1) u32Max
  | none => childCount

/-- mirrors src/account.rs:639-678 -/
def register (r : AccountRegistry) (account : Account) : Except AccountError (AccountId × AccountRegistry) :=
  match account.closedEarly with
  | some closed => .error (.closedBeforeOpened account.path account.openedOn closed)
  | none =>
    if r.index.contains account.path then .error (.alreadyRegistered account.path)
    else if h : r.accounts.length < 2 ^ 32 then
      .ok (⟨r.accounts.length, h⟩,
        { accounts := r.accounts ++ [account]
          index := r.index.insert account.path ⟨r.accounts.length, h⟩
          childCount := account.path.ancestors.foldl r.countChild r.childCount ++
            [min (r.descendantRange account.path).length u32Max]
          bounded := by rw [List.length_append, List.length_singleton]; omega })
    else .error .registryFull

/-- Overwrites the account behind a handle. -/
def put (r : AccountRegistry) (id : AccountId) (account : Account) : AccountRegistry :=
  { r with accounts := r.accounts.set id.index account, bounded := by rw [List.length_set]; exact r.bounded }

/-- mirrors src/account.rs:743-757 -/
def close (r : AccountRegistry) (id : AccountId) (on : Date) : Except AccountError AccountRegistry :=
  match r.get id with
  | none => .error (.unknownAccount id)
  | some account =>
    if on < account.openedOn then .error (.closedBeforeOpened account.path account.openedOn on)
    else .ok (r.put id { account with closedOn := some on })

/-- mirrors src/account.rs:760-767 -/
def reopen (r : AccountRegistry) (id : AccountId) : Except AccountError AccountRegistry :=
  match r.get id with
  | none => .error (.unknownAccount id)
  | some account => .ok (r.put id { account with closedOn := none })

/-- mirrors src/account.rs:781-787 -/
def setLimit (r : AccountRegistry) (id : AccountId) (limit : BalanceLimit) : Except AccountError AccountRegistry :=
  match r.get id with
  | none => .error (.unknownAccount id)
  | some account => .ok (r.put id { account with limit := limit })

/-- Restores a binding at the handle it was issued. mirrors src/account.rs:833-864 -/
def restore (r : AccountRegistry) (record : AccountRecord) : Except AccountError AccountRegistry :=
  match r.get record.id with
  | some existing =>
    if existing.path ≠ record.account.path then .error (.alreadyRegistered existing.path)
    else
      match record.account.closedEarly with
      | some closed => .error (.closedBeforeOpened record.account.path record.account.openedOn closed)
      | none => .ok (r.put record.id record.account)
  | none =>
    if record.id.index ≠ min r.accounts.length u32Max then
      .error (.notDense (min r.accounts.length u32Max) record.id.index)
    else (r.register record.account).map Prod.snd

/-- mirrors src/account.rs:877-888 -/
def fromRecords (records : List AccountRecord) : Except AccountError AccountRegistry :=
  (records.insertionSort fun a b => a.id.index ≤ b.id.index).foldlM restore new

section
variable {H : Type} [Blake3 H]

/-- mirrors src/account.rs:917-930 -/
def bindingLog (r : AccountRegistry) : MerkleLog H := .fromLeaves (bindingLeaves r.accounts)

/-- mirrors src/account.rs:909-911 -/
def commitment (r : AccountRegistry) : TreeHead H := (bindingLog r).head

/-- mirrors src/account.rs:990-1012 -/
def proveBindingAt (r : AccountRegistry) (id : AccountId) (size : Nat) : Option (AccountBindingProof H) :=
  if r.accounts.length < size ∨ size ≤ id.index then none
  else
    match r.get id with
    | none => none
    | some account =>
      match (MerkleLog.fromLeaves (bindingLeaves (r.accounts.take size))).inclusionProof id.index with
      | .error _ => none
      | .ok proof => some ⟨id, account.path, proof⟩

end

/-! ## What the operations keep -/

/-- The bindings of `r` are the first bindings of `r'`. -/
def Grows (r r' : AccountRegistry) : Prop := r.accounts.map Account.path <+: r'.accounts.map Account.path

theorem Grows.refl (r : AccountRegistry) : Grows r r := List.prefix_rfl

theorem Grows.trans {r r' r'' : AccountRegistry} (h : Grows r r') (h' : Grows r' r'') : Grows r r'' :=
  List.IsPrefix.trans h h'

theorem Grows.len_le {r r' : AccountRegistry} (h : Grows r r') : r.len ≤ r'.len := by
  simpa [len] using h.length_le

/-- Its first accounts have the paths it had. -/
theorem Grows.paths {r r' : AccountRegistry} (h : Grows r r') :
    (r'.accounts.take r.len).map Account.path = r.accounts.map Account.path := by
  have := List.prefix_iff_eq_take.1 h
  rw [List.map_take, len]
  rw [List.length_map] at this
  exact this.symm

theorem grows_register {r r' : AccountRegistry} {account : Account} {id : AccountId}
    (h : r.register account = .ok (id, r')) : Grows r r' := by
  unfold register at h
  split at h
  · cases h
  · split at h
    · cases h
    · split at h
      · cases h
        rw [Grows, List.map_append]
        exact List.prefix_append _ _
      · cases h

def paths (r : AccountRegistry) : List AccountPath := r.accounts.map Account.path

/-- An account is overwritten by one of the same path. -/
structure Overwrites (r r' : AccountRegistry) : Prop where
  paths : r'.paths = r.paths
  index : r'.index = r.index
  childCount : r'.childCount = r.childCount

theorem Overwrites.grows {r r' : AccountRegistry} (h : Overwrites r r') : Grows r r' := by
  show r.paths <+: r'.paths
  rw [h.paths]

theorem overwrites_put {r : AccountRegistry} {id : AccountId} {a b : Account} (h : r.get id = some a)
    (hp : b.path = a.path) : Overwrites r (r.put id b) := by
  refine ⟨?_, rfl, rfl⟩
  rw [paths, paths, put, List.map_set, hp]
  have hget : (r.accounts.map Account.path)[id.index]? = some a.path := by
    rw [List.getElem?_map, show r.accounts[id.index]? = some a from h, Option.map_some]
  obtain ⟨hi, hv⟩ := List.getElem?_eq_some_iff.1 hget
  rw [← hv, List.set_getElem_self]

theorem overwrites_close {r r' : AccountRegistry} {id : AccountId} {on : Date} (h : r.close id on = .ok r') :
    Overwrites r r' := by
  unfold close at h
  cases hg : r.get id with
  | none => simp [hg] at h
  | some account =>
    simp only [hg] at h
    split at h
    · cases h
    · cases h
      exact overwrites_put hg rfl

theorem overwrites_reopen {r r' : AccountRegistry} {id : AccountId} (h : r.reopen id = .ok r') : Overwrites r r' := by
  unfold reopen at h
  cases hg : r.get id with
  | none => simp [hg] at h
  | some account =>
    simp only [hg] at h
    cases h
    exact overwrites_put hg rfl

theorem overwrites_setLimit {r r' : AccountRegistry} {id : AccountId} {limit : BalanceLimit}
    (h : r.setLimit id limit = .ok r') : Overwrites r r' := by
  unfold setLimit at h
  cases hg : r.get id with
  | none => simp [hg] at h
  | some account =>
    simp only [hg] at h
    cases h
    exact overwrites_put hg rfl

theorem grows_close {r r' : AccountRegistry} {id : AccountId} {on : Date} (h : r.close id on = .ok r') :
    Grows r r' := (overwrites_close h).grows

theorem grows_reopen {r r' : AccountRegistry} {id : AccountId} (h : r.reopen id = .ok r') : Grows r r' :=
  (overwrites_reopen h).grows

theorem grows_setLimit {r r' : AccountRegistry} {id : AccountId} {limit : BalanceLimit}
    (h : r.setLimit id limit = .ok r') : Grows r r' := (overwrites_setLimit h).grows

section
variable {H : Type} [Blake3 H]

theorem commitment_eq (r : AccountRegistry) :
    (r.commitment : TreeHead H) = ⟨r.len, mth (bindingLeaves r.accounts)⟩ := by
  rw [commitment, MerkleLog.head_eq, bindingLog, MerkleLog.leaves_fromLeaves, length_bindingLeaves, len]

/-- A handle the registry had not issued by then has no proof. -/
theorem proveBindingAt_none {r : AccountRegistry} {id : AccountId} {size : Nat} (h : size ≤ id.index) :
    (r.proveBindingAt id size : Option (AccountBindingProof H)) = none := by
  rw [proveBindingAt, if_pos (.inr h)]

/-- **Bindings stay provable.** A handle issued by an earlier registry is proven
at its size by every registry that grew from it, against the head taken then. -/
theorem proveBindingAt_verifies [DecidableEq H] {r r' : AccountRegistry} (h : Grows r r') {id : AccountId}
    (hid : id.index < r.len) :
    ∃ p : AccountBindingProof H, r'.proveBindingAt id r.len = some p ∧ p.id = id ∧ p.verify r.commitment = true := by
  have hle : r.len ≤ r'.accounts.length := h.len_le
  have hlt : id.index < r'.accounts.length := lt_of_lt_of_le hid hle
  obtain ⟨a, ha⟩ : ∃ a, r'.accounts[id.index]? = some a := ⟨_, List.getElem?_eq_getElem hlt⟩
  have hleaves : (bindingLeaves (r'.accounts.take r.len) : List H) = bindingLeaves r.accounts := by
    rw [bindingLeaves, h.paths, bindingLeaves]
  have hleaf : (bindingLeaves r.accounts : List H)[id.index]? = some (accountBindingLeaf id a.path) := by
    rw [← hleaves]
    exact getElem?_bindingLeaves (by rw [List.getElem?_take, if_pos hid, ha])
  have hlen : (MerkleLog.fromLeaves (bindingLeaves r.accounts : List H)).leaves.length = r.len := by
    rw [MerkleLog.leaves_fromLeaves, length_bindingLeaves, len]
  rw [← MerkleLog.leaves_fromLeaves (bindingLeaves r.accounts)] at hleaf
  obtain ⟨p, hp, hv⟩ := MerkleLog.inclusionProofAt_verifies hlen.ge hid hleaf
  have hidx : p.leafIndex = id.index := by
    unfold MerkleLog.inclusionProofAt at hp
    split at hp
    · cases hp
    · split at hp
      · cases hp
      · cases hp; rfl
  refine ⟨⟨id, a.path, p⟩, ?_, rfl, ?_⟩
  · rw [proveBindingAt, if_neg (by omega)]
    simp only [get, ha, hleaves]
    rw [MerkleLog.inclusionProof, MerkleLog.len, hlen, hp]
  · rw [MerkleLog.leaves_fromLeaves] at hv
    rw [List.take_of_length_le (by rw [length_bindingLeaves, len])] at hv
    rw [AccountBindingProof.verify, commitment_eq, hv, hidx, decide_eq_true rfl, Bool.and_true]

end

end AccountRegistry

end DoubleEntry.L3
