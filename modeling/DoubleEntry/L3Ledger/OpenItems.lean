import DoubleEntry.L3Ledger.BalanceReads
import DoubleEntry.L3Ledger.ClearingRun

/-!
# Open items

The postings of a key with something outstanding, in log order. On sealed entries the
list is always there, and what is outstanding on it nets to the balance of the key
(`open_items_reconcile`): each active clearing applies as much to the debits of its
key as to its credits, and a cleared posting drops out with a residual of zero.

**Assumptions.** The journal is one that operations on sealed entries reach, clearings and
resets among them.

**Results.**
* `openItemsAmong_spec`: the loop over the candidates of a key.
* `Consistent.applied_sides`: clearings apply as much to debits as to credits.
* `open_items_reconcile`: the list is there, and nets to the balance.
-/
namespace DoubleEntry.L3

open DoubleEntry.Core DoubleEntry.L1

variable {P : Scale}

/-- mirrors src/clearing.rs:332-347 -/
structure OpenItem (P : Scale) where
  position : PostingPosition
  posting : PostingRef
  direction : Direction
  original : Amount P
  applied : Amount P
  residual : Amount P

/-- What is outstanding on one side of a list of open items. -/
def outstanding (d : Direction) (items : List (OpenItem P)) : Int :=
  ((items.filter (·.direction = d)).map (·.residual.minor)).sum

namespace ClearingRegister

/-- `open_items`. mirrors src/clearing.rs:558-582 -/
def openItemsAmong (r : ClearingRegister P) (lookup : PostingRef → Option (Posting P)) :
    List (PostingPosition × PostingRef) → Except ClearingError (List (OpenItem P))
  | [] => .ok []
  | (position, reference) :: candidates =>
    match lookup reference with
    | none => .error (.unknownPosting reference)
    | some posting => do
      let residual ← (posting.amount.checkedSub (r.appliedTo reference)).mapError .money
      let out ← openItemsAmong r lookup candidates
      if residual.isPositive then
        .ok (⟨position, reference, posting.direction, posting.amount, r.appliedTo reference, residual⟩ :: out)
      else .ok out

/-- A candidate's part of what is outstanding on a side. -/
def outstandingOn (r : ClearingRegister P) (lookup : PostingRef → Option (Posting P)) (d : Direction)
    (ref : PostingRef) : Int :=
  (lookup ref).elim 0 fun p => if p.direction = d then p.amount.minor - (r.appliedTo ref).minor else 0

/-- Candidates that resolve, none of them applied beyond its amount: the items are those with
something left. -/
theorem openItemsAmong_spec {r : ClearingRegister P} {lookup : PostingRef → Option (Posting P)}
    {candidates : List (PostingPosition × PostingRef)}
    (h : ∀ c ∈ candidates, ∃ p, lookup c.2 = some p ∧ 0 ≤ (r.appliedTo c.2).minor ∧
      (r.appliedTo c.2).minor ≤ p.amount.minor) :
    ∃ items, r.openItemsAmong lookup candidates = .ok items ∧
      ∀ d, outstanding d items = (candidates.map fun c => r.outstandingOn lookup d c.2).sum := by
  induction candidates with
  | nil => exact ⟨[], rfl, fun d => rfl⟩
  | cons c candidates ih =>
    obtain ⟨position, ref⟩ := c
    obtain ⟨p, hp, hnonneg, hle⟩ := h _ List.mem_cons_self
    obtain ⟨out, hout, hsum⟩ := ih fun c hc => h c (List.mem_cons_of_mem _ hc)
    have hfits : FitsI64 (p.amount.minor - (r.appliedTo ref).minor) := by
      have hhigh := p.amount.fits.2
      have hmin : i64Min ≤ 0 := by decide
      simp only at hnonneg hle
      exact ⟨by omega, by omega⟩
    have hres : p.amount.checkedSub (r.appliedTo ref) = .ok ⟨_, hfits⟩ := Amount.checkedSub_eq_ok.2 rfl
    have hhead : ∀ d, r.outstandingOn lookup d ref =
        if p.direction = d then p.amount.minor - (r.appliedTo ref).minor else 0 := fun d => by simp [outstandingOn, hp]
    simp only [openItemsAmong, hp, hres, hout, List.map_cons, List.sum_cons, hhead, ← hsum]
    by_cases hpos : 0 < p.amount.minor - (r.appliedTo ref).minor
    · have hpositive : (⟨_, hfits⟩ : Amount P).isPositive = true := decide_eq_true hpos
      refine ⟨_, if_pos hpositive, fun d => ?_⟩
      by_cases hd : p.direction = d <;> simp [outstanding, hd]
    · have hpositive : ¬ (⟨_, hfits⟩ : Amount P).isPositive = true := fun h => hpos (of_decide_eq_true h)
      refine ⟨out, if_neg hpositive, fun d => ?_⟩
      simp only at hle
      split <;> omega

/-! ## What the active clearings apply to a key -/

/-- Summed over references, what items apply to them. -/
theorem sum_amountIn {refs : List PostingRef} (hn : refs.Nodup) (items : List (ClearedItem P)) :
    (refs.map (amountIn items)).sum = ((items.filter (·.posting ∈ refs)).map (·.applied.minor)).sum := by
  induction items with
  | nil =>
    have hzero : amountIn ([] : List (ClearedItem P)) = fun _ => 0 := rfl
    simp [hzero]
  | cons item items ih =>
    have hone : (refs.map fun ref => if item.posting = ref then item.applied.minor else 0).sum =
        if item.posting ∈ refs then item.applied.minor else 0 := by
      rw [← List.sum_toFinset _ hn, Finset.sum_ite_eq]
      simp only [List.mem_toFinset]
    have hsplit : (refs.map (amountIn (item :: items))).sum =
        (refs.map fun ref => if item.posting = ref then item.applied.minor else 0).sum + (refs.map (amountIn items)).sum := by
      simp only [funext (amountIn_cons item items)]
      exact List.sum_map_add
    rw [hsplit, hone, ih]
    by_cases hm : item.posting ∈ refs <;> simp [hm]

/-- Summed over references, what clearings apply to them. -/
theorem sum_appliedOver (refs : List PostingRef) (cs : List (Clearing P)) :
    (refs.map (appliedOver cs)).sum = (cs.map fun c => (refs.map (amountIn c.items)).sum).sum := by
  induction cs with
  | nil =>
    have hzero : appliedOver ([] : List (Clearing P)) = fun _ => 0 := rfl
    simp [hzero]
  | cons c cs ih =>
    rw [List.map_cons, List.sum_cons, ← ih, ← List.sum_map_add]
    rfl

/-- The references to the postings on one side of a key. -/
def OnSide (postings : PostingRef → Option (Posting P)) (key : BalanceKey) (d : Direction) (refs : List PostingRef) : Prop :=
  refs.Nodup ∧ ∀ ref, ref ∈ refs ↔ ∃ p, postings ref = some p ∧ p.key = key ∧ p.direction = d

/-- A clearing of the key applies one of its sides, any other clearing nothing. -/
theorem Proper.sum_side {postings : PostingRef → Option (Posting P)} {c : Clearing P} (h : Proper postings c)
    {key : BalanceKey} {d : Direction} {refs : List PostingRef} (hr : OnSide postings key d refs) :
    (refs.map (amountIn c.items)).sum = if c.key = key then sideOf postings d c.items else 0 := by
  rw [sum_amountIn hr.1]
  by_cases hkey : c.key = key
  · rw [if_pos hkey]
    unfold sideOf
    congr 2
    refine List.filter_congr fun item hi => ?_
    obtain ⟨p, hp, hpk⟩ := h.scope item hi
    rw [hp, Option.any_some]
    refine decide_eq_decide.2 ((hr.2 item.posting).trans ⟨fun hx => ?_, fun hd => ⟨p, hp, hpk.trans hkey, hd⟩⟩)
    obtain ⟨q, hq, -, hd⟩ := hx
    rwa [← Option.some.inj (hp.symm.trans hq)] at hd
  · rw [if_neg hkey]
    have hnone : c.items.filter (·.posting ∈ refs) = [] := by
      refine List.filter_eq_nil_iff.2 fun item hi hm => hkey ?_
      obtain ⟨p, hp, hpk⟩ := h.scope item hi
      obtain ⟨q, hq, hqk, -⟩ := (hr.2 item.posting).1 (of_decide_eq_true hm)
      rw [← hpk, ← hqk, Option.some.inj (hp.symm.trans hq)]
    rw [hnone]
    rfl

/-- **Clearing nets to nothing**: as much is applied to the debits of a key as to its credits. -/
theorem Consistent.applied_sides {postings : PostingRef → Option (Posting P)} {r : ClearingRegister P}
    (h : Consistent postings r) {key : BalanceKey} {debits credits : List PostingRef}
    (hd : OnSide postings key .debit debits) (hc : OnSide postings key .credit credits) :
    (debits.map fun ref => (r.appliedTo ref).minor).sum = (credits.map fun ref => (r.appliedTo ref).minor).sum := by
  simp only [h.applied]
  rw [sum_appliedOver, sum_appliedOver]
  congr 1
  refine List.map_congr_left fun c hm => ?_
  have hp := (h.mem_active hm).2
  rw [hp.sum_side hd, hp.sum_side hc, hp.sides]

end ClearingRegister

/-! ## The open items of a journal -/

namespace Journal

variable {H : Type} [Blake3 H]

/-- The candidates of a key. mirrors src/journal.rs:1086-1098 -/
def candidates (j : Journal H P) (key : BalanceKey) : List (PostingPosition × PostingRef) :=
  ((j.sites.get? key).getD []).filterMap fun site =>
    (j.at site.index).map fun entry => (⟨site.index, site.posting⟩, ⟨entry.id, site.posting⟩)

/-- mirrors src/journal.rs:1083-1105 -/
def openItems (j : Journal H P) (key : BalanceKey) : Except (JournalError H) (List (OpenItem P)) :=
  (j.clearings.openItemsAmong j.postingLookup (j.candidates key)).mapError .clearing

section
omit [Blake3 H]

/-- The postings on a key with the references to them, in log order. -/
def heldOn (entries : List (Entry H .balanced P)) (key : BalanceKey) : List (PostingRef × Posting P) :=
  entries.flatMap fun e => (e.postings.zipIdx.filter fun p => p.1.key = key).map fun p => (⟨e.id, p.2⟩, p.1)

theorem map_snd_heldOn (entries : List (Entry H .balanced P)) (key : BalanceKey) :
    (heldOn entries key).map Prod.snd = (postingsOf entries).filter (·.key = key) := by
  unfold heldOn postingsOf
  rw [List.map_flatMap, List.filter_flatMap]
  refine List.flatMap_congr fun e _ => ?_
  rw [List.map_map, ← map_fst_zipIdx_filter]
  rfl

theorem mem_heldOn {entries : List (Entry H .balanced P)} {key : BalanceKey} {ref : PostingRef} {p : Posting P} :
    (ref, p) ∈ heldOn entries key ↔ p.key = key ∧ ∃ e ∈ entries, e.id = ref.entry ∧ e.postings[ref.index]? = some p := by
  unfold heldOn
  simp only [List.mem_flatMap, List.mem_map, List.mem_filter, List.mem_zipIdx_iff_getElem?, decide_eq_true_eq, Prod.mk.injEq]
  constructor
  · rintro ⟨e, he, ⟨q, i⟩, ⟨hq, hk⟩, rfl, rfl⟩
    exact ⟨hk, e, he, rfl, hq⟩
  · rintro ⟨hk, e, he, hid, hp⟩
    exact ⟨e, he, (p, ref.index), ⟨hp, hk⟩, by rw [hid], rfl⟩

theorem nodup_heldOn {entries : List (Entry H .balanced P)} (hids : (entries.map (·.id)).Nodup) (key : BalanceKey) :
    ((heldOn entries key).map Prod.fst).Nodup := by
  unfold heldOn
  rw [List.map_flatMap, List.nodup_flatMap]
  constructor
  · intro e _
    have hidx : (e.postings.zipIdx.filter fun p => p.1.key = key).Pairwise fun a b => a.2 ≠ b.2 := by
      apply List.pairwise_map.1
      refine (List.filter_sublist.map Prod.snd).nodup ?_
      rw [List.zipIdx_map_snd]
      exact List.nodup_range'
    rw [List.map_map]
    refine List.pairwise_map.2 (hidx.imp fun hne he => hne ?_)
    exact congrArg PostingRef.index he
  · refine (List.pairwise_map.1 hids).imp fun hne ref ha hb => hne ?_
    obtain ⟨x, hx, rfl⟩ := List.mem_map.1 ha
    obtain ⟨p, -, rfl⟩ := List.mem_map.1 hx
    obtain ⟨y, hy, he⟩ := List.mem_map.1 hb
    obtain ⟨q, -, rfl⟩ := List.mem_map.1 hy
    exact (congrArg PostingRef.entry he).symm

/-- Summed over the postings of a side, in `f` of their references. -/
theorem sum_heldOn (entries : List (Entry H .balanced P)) (key : BalanceKey) (d : Direction) (f : PostingRef → Int) :
    ((heldOn entries key).map fun x => if x.2.direction = d then x.2.amount.minor - f x.1 else 0).sum =
      gross d key (postingsOf entries) - ((((heldOn entries key).filter (·.2.direction = d)).map Prod.fst).map f).sum := by
  have hgross : gross d key (postingsOf entries) =
      (((heldOn entries key).filter (·.2.direction = d)).map (·.2.amount.minor)).sum := by
    have hpostings : (postingsOf entries).filter (fun p => p.key = key ∧ p.direction = d) =
        ((heldOn entries key).filter (·.2.direction = d)).map Prod.snd := by
      have hmap : ((heldOn entries key).map Prod.snd).filter (fun p => p.direction = d) =
          ((heldOn entries key).filter (·.2.direction = d)).map Prod.snd := List.filter_map
      rw [← hmap, map_snd_heldOn, List.filter_filter]
      exact List.filter_congr fun p _ => by simp [and_comm]
    rw [gross, hpostings, List.map_map]
    rfl
  rw [hgross]
  induction heldOn entries key with
  | nil => rfl
  | cons x l ih =>
    rw [List.map_cons, List.sum_cons, ih]
    by_cases hd : x.2.direction = d
    · simp only [hd, if_true, List.filter_cons_of_pos, decide_true, List.map_cons, List.sum_cons]
      omega
    · simp [hd]

end

/-- A reference to a posting on file resolves to it. -/
theorem Mapped.postingLookup_eq {j : Journal H P} (h : j.Mapped) {ref : PostingRef} {p : Posting P} :
    j.postingLookup ref = some p ↔ ∃ e ∈ j.entries, e.id = ref.entry ∧ e.postings[ref.index]? = some p := by
  unfold postingLookup
  rw [Option.bind_eq_some_iff]
  constructor
  · intro ⟨e, he, hp⟩
    obtain ⟨i, hi, hat⟩ := Option.bind_eq_some_iff.1 he
    obtain ⟨e', he', hid⟩ := (h.byId _ i).1 hi
    obtain rfl : e' = e := Option.some.inj (he'.symm.trans hat)
    exact ⟨e', List.mem_of_getElem? hat, hid, hp⟩
  · intro ⟨e, he, hid, hp⟩
    obtain ⟨i, hi⟩ := List.mem_iff_getElem?.1 he
    exact ⟨e, Option.bind_eq_some_iff.2 ⟨i, (h.byId _ i).2 ⟨e, hi, hid⟩, hi⟩, hp⟩

/-- The candidates of a key are the references to its postings. -/
theorem Kept.candidates_eq {j : Journal H P} (h : j.Kept) (key : BalanceKey) :
    (j.candidates key).map Prod.snd = (heldOn j.entries key).map Prod.fst := by
  have hat : ∀ x ∈ j.entries.zipIdx, j.at x.2 = some x.1 := fun x hx => List.mem_zipIdx_iff_getElem?.1 hx
  unfold candidates heldOn
  rw [h.sited.getD, sitesOf, List.filterMap_flatMap, List.map_flatMap, List.map_flatMap]
  conv_rhs => rw [← List.zipIdx_map_fst 0 j.entries, List.flatMap_map]
  refine List.flatMap_congr fun x hx => ?_
  rw [List.filterMap_map, List.map_filterMap, List.map_map]
  rw [← List.filterMap_eq_map]
  refine List.filterMap_congr fun p _ => ?_
  simp [hat x hx]

/-- **Open items reconcile.** After any operations on sealed entries, clearings and
resets among them, the open items of every key are there, and what is outstanding on
their debits less what is on their credits is the balance of the key. -/
theorem open_items_reconcile [DecidableEq H] {ledger : LedgerId} {j : Journal H P}
    (hj : (sealedOperations ledger).Reachable j) (key : BalanceKey) : ∃ items, j.openItems key = .ok items ∧
      outstanding .debit items - outstanding .credit items =
        (j.balances.getOrZero key).debits.minor - (j.balances.getOrZero key).credits.minor := by
  have hkept := kept_of_reachable hj
  have hcons := clearings_consistent hj
  -- what the references of the candidates resolve to
  have hlookup : ∀ x ∈ heldOn j.entries key, j.postingLookup x.1 = some x.2 := fun x hx =>
    hkept.mapped.postingLookup_eq.2 (mem_heldOn.1 hx).2
  have hside : ∀ d, ClearingRegister.OnSide j.postingLookup key d
      (((heldOn j.entries key).filter (·.2.direction = d)).map Prod.fst) := by
    intro d
    refine ⟨(List.filter_sublist.map _).nodup (nodup_heldOn hkept.mapped.ids key), fun ref => ?_⟩
    simp only [List.mem_map, List.mem_filter, decide_eq_true_eq, Prod.exists, exists_and_right, exists_eq_right]
    constructor
    · intro ⟨p, hx, hd⟩
      exact ⟨p, hlookup _ hx, (mem_heldOn.1 hx).1, hd⟩
    · intro ⟨p, hp, hk, hd⟩
      exact ⟨p, mem_heldOn.2 ⟨hk, hkept.mapped.postingLookup_eq.1 hp⟩, hd⟩
  have hresolve : ∀ c ∈ j.candidates key, ∃ p, j.postingLookup c.2 = some p ∧
      0 ≤ (j.clearings.appliedTo c.2).minor ∧ (j.clearings.appliedTo c.2).minor ≤ p.amount.minor := by
    intro c hc
    have hmem : c.2 ∈ (heldOn j.entries key).map Prod.fst := hkept.candidates_eq key ▸ List.mem_map_of_mem hc
    obtain ⟨x, hx, he⟩ := List.mem_map.1 hmem
    have hp := he ▸ hlookup x hx
    exact ⟨x.2, hp, hcons.applied_nonneg _, hcons.bounded _ _ hp⟩
  obtain ⟨items, hitems, hsum⟩ := ClearingRegister.openItemsAmong_spec hresolve
  refine ⟨items, by rw [openItems, hitems]; rfl, ?_⟩
  have houtstanding : ∀ d, outstanding d items = gross d key (postingsOf j.entries) -
      ((((heldOn j.entries key).filter (·.2.direction = d)).map Prod.fst).map fun ref => (j.clearings.appliedTo ref).minor).sum := by
    intro d
    have hrefs : ((j.candidates key).map fun c => j.clearings.outstandingOn j.postingLookup d c.2) =
        (heldOn j.entries key).map fun x => j.clearings.outstandingOn j.postingLookup d x.1 := by
      have h := congrArg (List.map (j.clearings.outstandingOn j.postingLookup d)) (hkept.candidates_eq key)
      rwa [List.map_map, List.map_map] at h
    rw [hsum, hrefs, ← sum_heldOn]
    congr 1
    refine List.map_congr_left fun x hx => ?_
    rw [ClearingRegister.outstandingOn, hlookup x hx, Option.elim_some]
  have hnet := hcons.applied_sides (hside .debit) (hside .credit)
  have hbalance := (totals_of_applyAll hkept.posted.folded).side key
  have hdebits : (j.balances.getOrZero key).debits.minor = gross .debit key (postingsOf j.entries) := hbalance .debit
  have hcredits : (j.balances.getOrZero key).credits.minor = gross .credit key (postingsOf j.entries) := hbalance .credit
  rw [houtstanding, houtstanding, hdebits, hcredits]
  omega

/-! ## A sale of March, refunded in part -/

def fourEuro : Amount cents := ⟨400, by decide⟩

def refund : Entry Preimage .draft cents :=
  ((Entry.new ⟨⟨3, by decide⟩⟩ ⟨[3], rfl⟩ march.end).post (.debit salesId fourEuro .eur)).post (.credit cashId fourEuro .eur)

/-- The refund, against the sale. -/
def refunded : Clearing cents where
  id := ⟨refund.id.uuid⟩
  account := cashId
  currency := .eur
  layer := .settled
  clearedOn := march.end
  items := [⟨⟨saleOfMarch.id, 0⟩, fourEuro⟩, ⟨⟨refund.id, 1⟩, fourEuro⟩]

def partRefunded : Journal Preimage cents :=
  (new books).afterAll (marchDefined ++ [.record saleOfMarch, .record refund, .clear refunded])

set_option maxRecDepth 10000 in
/-- Not vacuous: the refund drops out, and what is left of the sale is the balance. -/
theorem partRefunded_reconciles :
    (partRefunded.openItems ⟨cashId, .eur, .settled⟩).toOption.map (fun items => (items.length, outstanding .debit items)) =
      some (1, 600) ∧
    ∃ items, partRefunded.openItems ⟨cashId, .eur, .settled⟩ = .ok items ∧
      outstanding .debit items - outstanding .credit items =
        (partRefunded.balances.getOrZero ⟨cashId, .eur, .settled⟩).debits.minor -
          (partRefunded.balances.getOrZero ⟨cashId, .eur, .settled⟩).credits.minor :=
  ⟨by decide, open_items_reconcile ⟨_, _, rfl, run_sealedCalls books _ _⟩ _⟩

end Journal

end DoubleEntry.L3
