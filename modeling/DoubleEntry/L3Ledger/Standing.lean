import DoubleEntry.L3Ledger.BalanceReads
import DoubleEntry.L3Ledger.Corrections

/-!
# Entries that stand

An entry stands if it is no reversal and was not reversed. Where reversals name
entries on file that are none themselves, each once, and invert them (`Cancels`), what
was corrected adds nothing: debits less credits of a key are those of the entries that
stand (`net_standing`). A journal is so at every size it had (`balance_stands`).

**Results.**
* `originals_perm`: what does not stand is a reversal, or the original of one.
* `net_standing`: for any list of entries that `Cancels`.
* `corrects_of_run`, `balance_stands`: a journal is one at every size, and its balances are
  those of what stands.
-/
namespace DoubleEntry.L3

open DoubleEntry.Core DoubleEntry.L1 DoubleEntry.L2

section
variable {H : Type} {P : Scale} {entries : List (Entry H .balanced P)}

/-- No reversal, and not reversed by any of `entries`. -/
def Stands (entries : List (Entry H .balanced P)) (e : Entry H .balanced P) : Bool :=
  e.reverses.isNone && entries.all fun r => r.reverses ≠ some e.id

def standing (entries : List (Entry H .balanced P)) : List (Entry H .balanced P) := entries.filter (Stands entries)

/-- Reversals name other entries, which are none, each once, and invert them. -/
structure Cancels (entries : List (Entry H .balanced P)) : Prop where
  ids : (entries.map (·.id)).Nodup
  target : ∀ e ∈ entries, ∀ original, e.reverses = some original → ∃ t ∈ entries, t.id = original ∧
    t.reverses = none ∧ e.postings = t.postings.map (·.inverted)
  once : (entries.filterMap (·.reverses)).Nodup

/-! ## Sums of entries -/

theorem net_append (key : BalanceKey) (ps qs : List (Posting P)) : net key (ps ++ qs) = net key ps + net key qs := by
  unfold net
  rw [gross_append, gross_append]
  omega

theorem net_flatMap (key : BalanceKey) (entries : List (Entry H .balanced P)) :
    net key (entries.flatMap (·.postings)) = (entries.map fun e => net key e.postings).sum := by
  induction entries with
  | nil => rfl
  | cons e entries ih => rw [List.flatMap_cons, net_append, ih, List.map_cons, List.sum_cons]

theorem sum_filter_add {α : Type} (p : α → Bool) (f : α → Int) (l : List α) :
    ((l.filter p).map f).sum + ((l.filter fun a => !p a).map f).sum = (l.map f).sum := by
  rw [← List.sum_append, ← List.map_append]
  exact ((List.filter_append_perm p l).map f).sum_eq

/-- Over the entries that reverse one, a function of the one reversed. -/
theorem sum_reversals {f : Entry H .balanced P → Int} {g : EntryId → Int} {entries : List (Entry H .balanced P)}
    (h : ∀ e ∈ entries, ∀ original, e.reverses = some original → f e = g original) :
    ((entries.filter (·.reverses.isSome)).map f).sum = ((entries.filterMap (·.reverses)).map g).sum := by
  induction entries with
  | nil => rfl
  | cons e entries ih =>
    have hrest := ih fun x hx => h x (List.mem_cons_of_mem _ hx)
    cases ho : e.reverses with
    | none => simp [ho, hrest]
    | some original => simp [ho, hrest, h e List.mem_cons_self original ho]

/-! ## Corrected entries add nothing -/

namespace Cancels

/-- The postings of the entry with an identifier, summed. -/
def netOf (entries : List (Entry H .balanced P)) (key : BalanceKey) (id : EntryId) : Int :=
  (entries.find? fun e => e.id = id).elim 0 fun e => net key e.postings

theorem netOf_eq (h : Cancels entries) (key : BalanceKey) {e : Entry H .balanced P} (he : e ∈ entries) :
    netOf entries key e.id = net key e.postings := by
  have hfind : entries.find? (fun x => x.id = e.id) = some e := by
    cases hf : entries.find? (fun x => x.id = e.id) with
    | none => simpa using List.find?_eq_none.1 hf e he
    | some x =>
      have hid : x.id = e.id := by simpa using List.find?_some hf
      rw [List.inj_on_of_nodup_map h.ids (List.mem_of_find?_eq_some hf) he hid]
  rw [netOf, hfind]
  rfl

/-- The originals are the entries that do not stand and are no reversals. -/
theorem originals_perm (h : Cancels entries) :
    ((entries.filter fun e => !Stands entries e && e.reverses.isNone).map (·.id)).Perm (entries.filterMap (·.reverses)) := by
  have hids : ((entries.filter fun e => !Stands entries e && e.reverses.isNone).map (·.id)).Nodup :=
    h.ids.sublist (List.filter_sublist.map _)
  refine (List.perm_ext_iff_of_nodup hids h.once).2 fun original => ?_
  rw [List.mem_map, List.mem_filterMap]
  constructor
  · intro ⟨t, ht, hid⟩
    obtain ⟨ht, hp⟩ := List.mem_filter.1 ht
    rw [Bool.and_eq_true, Bool.not_eq_true', Stands, Bool.and_eq_false_iff] at hp
    obtain ⟨hstands, hnone⟩ := hp
    rw [hnone, or_iff_right (by simp), List.all_eq_false] at hstands
    obtain ⟨e, he, hrev⟩ := hstands
    exact ⟨e, he, by simpa [hid] using hrev⟩
  · intro ⟨e, he, ho⟩
    obtain ⟨t, ht, hid, hnone, -⟩ := h.target e he original ho
    refine ⟨t, List.mem_filter.2 ⟨ht, ?_⟩, hid⟩
    have hreversed : ¬ Stands entries t = true := fun hs => by
      rw [Stands, Bool.and_eq_true, List.all_eq_true] at hs
      simpa [ho, hid] using hs.2 e he
    simp [hreversed, hnone]

/-- **What was corrected adds nothing.** -/
theorem net_standing (h : Cancels entries) (key : BalanceKey) :
    net key (entries.flatMap (·.postings)) = net key ((standing entries).flatMap (·.postings)) := by
  let f : Entry H .balanced P → Int := fun e => net key e.postings
  -- what does not stand is a reversal, or an original
  have hsplit := sum_filter_add (Stands entries) f entries
  have hcorrected := sum_filter_add (·.reverses.isNone) f (entries.filter fun e => !Stands entries e)
  have hreversals : ((entries.filter fun e => !Stands entries e).filter fun e => !e.reverses.isNone) =
      entries.filter (·.reverses.isSome) := by
    rw [List.filter_filter]
    refine List.filter_congr fun e _ => ?_
    cases ho : e.reverses <;> simp [Stands, ho]
  have horiginals : ((entries.filter fun e => !Stands entries e).filter (·.reverses.isNone)) =
      entries.filter fun e => !Stands entries e && e.reverses.isNone := by
    rw [List.filter_filter]
    exact List.filter_congr fun e _ => Bool.and_comm _ _
  have hnegative : ((entries.filter (·.reverses.isSome)).map f).sum =
      ((entries.filterMap (·.reverses)).map fun o => -netOf entries key o).sum := by
    refine sum_reversals fun e he original ho => ?_
    obtain ⟨t, ht, rfl, -, hinv⟩ := h.target e he original ho
    have hzero := net_inverted key t.postings
    rw [net_append, ← hinv] at hzero
    rw [h.netOf_eq key ht]
    show net key e.postings = _
    omega
  have hpositive : ((entries.filter fun e => !Stands entries e && e.reverses.isNone).map f).sum =
      ((entries.filterMap (·.reverses)).map (netOf entries key)).sum := by
    rw [← (h.originals_perm.map (netOf entries key)).sum_eq, List.map_map]
    refine congrArg List.sum (List.map_congr_left fun t ht => ?_)
    exact (h.netOf_eq key (List.mem_filter.1 ht).1).symm
  have hcancel : ∀ l : List EntryId, (l.map (netOf entries key)).sum + (l.map fun o => -netOf entries key o).sum = 0 := by
    intro l
    induction l with
    | nil => rfl
    | cons o l ih =>
      rw [List.map_cons, List.map_cons, List.sum_cons, List.sum_cons]
      omega
  have hzero := hcancel (entries.filterMap (·.reverses))
  rw [hreversals, horiginals, hnegative, hpositive] at hcorrected
  rw [net_flatMap, net_flatMap]
  show (entries.map f).sum = ((standing entries).map f).sum
  unfold standing
  omega

end Cancels

end

/-! ## Journals -/

namespace Journal

variable {H : Type} [Blake3 H] {P : Scale}

omit [Blake3 H] in
/-- A reversal comes after its original, so that the first entries are no less corrected. -/
theorem Corrects.cancels_take {entries : List (Entry H .balanced P)} (h : Corrects entries) (hids : (entries.map (·.id)).Nodup)
    (size : Nat) : Cancels (entries.take size) where
  ids := hids.sublist ((List.take_sublist size entries).map _)
  target e he original ho := by
    obtain ⟨i, hi⟩ := List.mem_iff_getElem?.1 he
    rw [List.getElem?_take] at hi
    split at hi
    · obtain ⟨k, t, hlt, hk, ht⟩ := h.target i e original hi ho
      refine ⟨t, List.mem_of_getElem? (i := k) ?_, ht⟩
      rw [List.getElem?_take_of_lt (by omega)]
      exact hk
    · cases hi
  once := by
    have hpairs : entries.Pairwise fun a b => ∀ o ∈ a.reverses, ∀ o' ∈ b.reverses, o ≠ o' := by
      rw [List.pairwise_iff_getElem]
      intro i i' hi hi' hlt o ho o' ho' heq
      subst heq
      exact hlt.ne (h.once i i' _ _ o (List.getElem?_eq_getElem hi) (List.getElem?_eq_getElem hi') ho ho')
    exact List.pairwise_filterMap.2 ((hpairs.sublist (List.take_sublist size entries)).imp fun h => h)

variable [DecidableEq H]

theorem corrects_of_run {ledger : LedgerId} {j : Journal H P} (hj : (operations ledger).Reachable j) :
    j.Mapped ∧ Corrects j.entries := by
  refine LTS.Inductive.reachable (T := operations ledger) (I := fun j => j.Mapped ∧ Corrects j.entries) ⟨?_, ?_⟩ hj
  · intro j h
    obtain rfl : j = new ledger := h
    exact ⟨mapped_new ledger .permissive, corrects_nil⟩
  · intro j o j' h st
    obtain rfl : j' = j.operate o := st
    exact ⟨h.1.operate o, h.2.operate h.1 o⟩

/-- **Balances are those of the entries that stand**, at every size of the log: what was
corrected up to there takes itself out. -/
theorem balance_stands {ledger : LedgerId} {j : Journal H P} (hj : (sealedOperations ledger).Reachable j)
    (key : BalanceKey) (size : Nat) : ∃ b, j.balance key (some size) = .ok b ∧
      b.side .debit - b.side .credit = net key (postingsOf (standing (j.entries.take size))) := by
  have hk := kept_of_reachable hj
  obtain ⟨hm, hc⟩ := corrects_of_run hj.of_restrict
  obtain ⟨tb, htb, hfold⟩ := hk.part_ok (List.take_sublist size j.entries)
  refine ⟨_, (hk.balance_eq key size).trans (hfold key), ?_⟩
  rw [(totals_of_applyAll htb).side key .debit, (totals_of_applyAll htb).side key .credit]
  exact (hc.cancels_take hm.ids size).net_standing key

theorem reachable_marchCorrected : (sealedOperations books).Reachable (marchReversed reversalOfMarch) :=
  ⟨_, _, rfl, run_sealedCalls books _ (aprilOpen ++ [.record reversalOfMarch])⟩

set_option maxRecDepth 10000 in
/-- Not vacuous: the sale stands until it is reversed, and then the cash account is at zero. -/
theorem march_sale_stood : (standing ((marchReversed reversalOfMarch).entries.take 1)).length = 1 ∧
    ∃ b, (marchReversed reversalOfMarch).balance ⟨cashId, .eur, .settled⟩ (some 2) = .ok b ∧
      b.side .debit = b.side .credit ∧ b.side .debit = 1000 := by
  obtain ⟨b, hb, hnet⟩ := balance_stands reachable_marchCorrected ⟨cashId, .eur, .settled⟩ 2
  have hnone : standing ((marchReversed reversalOfMarch).entries.take 2) = [] :=
    List.length_eq_zero_iff.1 (by decide)
  have hdebit : ((marchReversed reversalOfMarch).balance ⟨cashId, .eur, .settled⟩ (some 2)).toOption.map (·.side .debit) =
      some 1000 := by decide
  rw [hnone] at hnet
  rw [hb] at hdebit
  have hzero : b.side .debit - b.side .credit = 0 := hnet
  exact ⟨by decide, b, hb, by omega, Option.some.inj hdebit⟩

end Journal

end DoubleEntry.L3
