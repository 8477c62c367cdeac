import DoubleEntry.L3Ledger.Entry

/-!
# Open-item clearing

A clearing relates postings that offset one another, all on one balance key. The
register keeps the events and, derived from them, how much has been applied to
each posting. Both calls check everything before they write.

`clear` checks in this order: the identifier is new; there are two items; then item by item that
it is named once, positive, of a known posting on the key, and no more than what is left; last,
that the sides agree. `reset` takes back what a clearing applied, once, and keeps its event. The
applied amounts of all items are computed before any is stored (`restage`).

What holds over runs of the two calls is `ClearingRun`, and replaying stored events is
`ClearingReplay`.
-/
namespace DoubleEntry.L3

open DoubleEntry.Core DoubleEntry.L1

/-- mirrors src/clearing.rs:45-50 -/
structure PostingRef where
  entry : EntryId
  index : Nat

def PostingRef.toLexRef (r : PostingRef) : EntryId ×ₗ ℕ := toLex (r.entry, r.index)

instance : LinearOrder PostingRef :=
  LinearOrder.lift' PostingRef.toLexRef fun ⟨_, _⟩ ⟨_, _⟩ h => by
    simp only [PostingRef.toLexRef, EmbeddingLike.apply_eq_iff_eq, Prod.mk.injEq] at h
    obtain ⟨rfl, rfl⟩ := h
    rfl

/-- mirrors src/clearing.rs:79-84 -/
structure PostingPosition where
  index : Nat
  posting : Nat

def PostingPosition.toLexPosition (p : PostingPosition) : ℕ ×ₗ ℕ := toLex (p.index, p.posting)

instance : LinearOrder PostingPosition :=
  LinearOrder.lift' PostingPosition.toLexPosition fun ⟨_, _⟩ ⟨_, _⟩ h => by
    simp only [PostingPosition.toLexPosition, EmbeddingLike.apply_eq_iff_eq, Prod.mk.injEq] at h
    obtain ⟨rfl, rfl⟩ := h
    rfl

theorem PostingPosition.lt_iff {p q : PostingPosition} :
    p < q ↔ p.index < q.index ∨ p.index = q.index ∧ p.posting < q.posting :=
  Prod.Lex.lt_iff (x := p.toLexPosition) (y := q.toLexPosition)

/-- mirrors src/clearing.rs:103 -/
structure ClearingId where
  uuid : Uuid

instance : LinearOrder ClearingId := LinearOrder.lift' ClearingId.uuid fun ⟨_⟩ ⟨_⟩ h => congrArg _ h

variable {P : Scale}

/-- mirrors src/clearing.rs:135-140 -/
structure ClearedItem (P : Scale) where
  posting : PostingRef
  applied : Amount P

/-- mirrors src/clearing.rs:149-169 -/
structure Clearing (P : Scale) where
  id : ClearingId
  account : AccountId
  currency : Currency
  layer : Layer
  clearedOn : Date
  items : List (ClearedItem P)

/-- mirrors src/clearing.rs:212-312 -/
inductive ClearingError
  | tooFewItems (count : Nat)
  | duplicateItem (posting : PostingRef)
  | unknownPosting (posting : PostingRef)
  | wrongAccount (posting : PostingRef) (expected : AccountId)
  | wrongCurrency (posting : PostingRef) (expected : Currency)
  | wrongLayer (posting : PostingRef) (expected : Layer)
  | nonPositiveApplication (posting : PostingRef)
  | overApplied (posting : PostingRef) (requestedMinor residualMinor : Int) (scale : Nat)
  | unbalanced (debitsMinor creditsMinor : Int) (scale : Nat)
  | duplicateId (id : ClearingId)
  | unknownClearing (id : ClearingId)
  | alreadyReset (id : ClearingId)
  | money (e : MoneyError)
  deriving DecidableEq

/-- mirrors src/clearing.rs:317-327 -/
inductive ClearingEvent (P : Scale)
  | cleared (clearing : Clearing P)
  | reset (clearing : ClearingId) (on : Date)

/-- `resetOn` is the field `reset`. mirrors src/clearing.rs:353-361 -/
structure ClearingRegister (P : Scale) where
  events : List (ClearingEvent P)
  applied : OrdMap PostingRef (Amount P)
  resetOn : OrdMap ClearingId Date
  byId : OrdMap ClearingId Nat

namespace ClearingRegister

/-- mirrors src/clearing.rs:372-379 -/
def new : ClearingRegister P := ⟨[], .empty, .empty, .empty⟩

/-- mirrors src/clearing.rs:383-385 -/
def appliedTo (r : ClearingRegister P) (posting : PostingRef) : Amount P :=
  (r.applied.get? posting).getD .zero

/-- What a posting must be for an item of this clearing.
mirrors src/clearing.rs:431-453 -/
def checkScope (clearing : Clearing P) (item : ClearedItem P) (posting : Posting P) : Except ClearingError Unit :=
  if posting.account ≠ clearing.account then .error (.wrongAccount item.posting clearing.account)
  else if posting.currency ≠ clearing.currency then .error (.wrongCurrency item.posting clearing.currency)
  else if posting.layer ≠ clearing.layer then .error (.wrongLayer item.posting clearing.layer)
  else .ok ()

/-- One turn of the loop: the references seen and the two sides so far.
mirrors src/clearing.rs:418-467 -/
def checkItem (r : ClearingRegister P) (lookup : PostingRef → Option (Posting P)) (clearing : Clearing P)
    (st : List PostingRef × Balance P) (item : ClearedItem P) :
    Except ClearingError (List PostingRef × Balance P) :=
  if item.posting ∈ st.1 then .error (.duplicateItem item.posting)
  else if item.applied.isPositive = false then .error (.nonPositiveApplication item.posting)
  else
    match lookup item.posting with
    | none => .error (.unknownPosting item.posting)
    | some posting => do
      checkScope clearing item posting
      let residual ← (posting.amount.checkedSub (r.appliedTo item.posting)).mapError .money
      if residual < item.applied then
        .error (.overApplied item.posting item.applied.minor residual.minor P.val)
      else
        let sides ← (st.2.add posting.direction item.applied).mapError .money
        .ok (item.posting :: st.1, sides)

/-- Moves the applied amount of every item by `op`, all computed before any is
stored. mirrors src/clearing.rs:477-484,503-511 -/
def restage (r : ClearingRegister P) (op : Amount P → Amount P → Except MoneyError (Amount P))
    (items : List (ClearedItem P)) : Except ClearingError (OrdMap PostingRef (Amount P)) :=
  (items.mapM fun item => (op (r.appliedTo item.posting) item.applied).map fun updated => (item.posting, updated)).mapError
    .money |>.map fun staged => staged.foldl (fun applied e => applied.insert e.1 e.2) r.applied

/-- mirrors src/clearing.rs:401-488 -/
def clear (r : ClearingRegister P) (clearing : Clearing P) (lookup : PostingRef → Option (Posting P)) :
    Except ClearingError (ClearingRegister P) :=
  if r.byId.contains clearing.id then .error (.duplicateId clearing.id)
  else if clearing.items.length < 2 then .error (.tooFewItems clearing.items.length)
  else do
    let (_, sides) ← clearing.items.foldlM (r.checkItem lookup clearing) ([], .zero)
    if sides.isBalanced = false then .error (.unbalanced sides.debits.minor sides.credits.minor P.val)
    else
      let applied ← r.restage Amount.checkedAdd clearing.items
      .ok { r with
        applied := applied
        byId := r.byId.insert clearing.id r.events.length
        events := r.events ++ [.cleared clearing] }

/-- mirrors src/clearing.rs:489-512 -/
def reset (r : ClearingRegister P) (id : ClearingId) (on : Date) : Except ClearingError (ClearingRegister P) :=
  match r.byId.get? id with
  | none => .error (.unknownClearing id)
  | some index =>
    if r.resetOn.contains id then .error (.alreadyReset id)
    else
      match r.events[index]? with
      | some (.cleared clearing) => do
        let applied ← r.restage Amount.checkedSub clearing.items
        .ok { r with
          applied := applied
          resetOn := r.resetOn.insert id on
          events := r.events ++ [.reset id on] }
      | _ => .error (.unknownClearing id)

end ClearingRegister

end DoubleEntry.L3
