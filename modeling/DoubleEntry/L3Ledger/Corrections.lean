import DoubleEntry.L3Ledger.Indexes
import DoubleEntry.L3Ledger.Typestate

/-!
# Corrections

A reversal is recorded only if its original is on file, is no reversal and was not
reversed, and if it inverts it (`checkReversal_spec`). So in any journal the reversals
name earlier entries, each once, and cancel them (`corrections_of_reachable`), for
any entries.

The original booking date is not looked at. `Entry::reverse` takes it from the
original, `reversing` and a deserialised draft take any date: the dates on file are
right as long as those submitted are (`reversals_dated`), and a reversal with another
date is recorded (`misdated_reversal`).

**Assumptions.** For what reversals do, none: any operations with any entries. For their
dates, `DatesStated`, of the entries that are submitted.

**Results.**
* `Mapped.target`: what an accepted reversal reverses.
* `Corrects.operate`, `corrections_of_reachable`: one operation, and every run.
* `datesStated_reverse`, `datesStated_plain`: what `Entry::reverse` builds, and an entry that
  reverses nothing, state their dates.
-/
namespace DoubleEntry.L3

open DoubleEntry.Core DoubleEntry.L1 DoubleEntry.L2

/-! ## Inversion -/

section
variable {P : Scale}

@[simp] theorem Direction.inverse_inverse (d : Direction) : d.inverse.inverse = d := by cases d <;> rfl

theorem Direction.inverse_eq_iff {d d' : Direction} : d.inverse = d' ↔ d = d'.inverse := by
  cases d <;> cases d' <;> simp [inverse]

@[simp] theorem Posting.key_inverted (p : Posting P) : p.inverted.key = p.key := rfl

theorem gross_inverted (d : Direction) (key : BalanceKey) (ps : List (Posting P)) :
    gross d key (ps.map (·.inverted)) = gross d.inverse key ps := by
  have hside : (fun p : Posting P => decide (p.key = key ∧ p.direction = d)) ∘ Posting.inverted =
      fun p => decide (p.key = key ∧ p.direction = d.inverse) := by
    funext p
    exact decide_eq_decide.2 (and_congr_right fun _ => Direction.inverse_eq_iff)
  unfold gross
  rw [List.filter_map, hside, List.map_map]
  rfl

/-- Debits less credits of a key. -/
def net (key : BalanceKey) (ps : List (Posting P)) : Int := gross .debit key ps - gross .credit key ps

theorem net_inverted (key : BalanceKey) (ps : List (Posting P)) : net key (ps ++ ps.map (·.inverted)) = 0 := by
  have hd : gross .debit key (ps.map (·.inverted)) = gross .credit key ps := gross_inverted .debit key ps
  have hc : gross .credit key (ps.map (·.inverted)) = gross .debit key ps := gross_inverted .credit key ps
  unfold net
  rw [gross_append, gross_append, hd, hc]
  omega

end

namespace Journal

variable {H : Type} {P : Scale}

theorem isInversionOf_iff {original candidate : Entry H .balanced P} :
    isInversionOf original candidate = true ↔ candidate.postings = original.postings.map (·.inverted) := by
  unfold isInversionOf
  generalize original.postings = ps, candidate.postings = qs
  induction ps generalizing qs with
  | nil => cases qs <;> simp
  | cons p ps ih =>
    cases qs with
    | nil => simp
    | cons q qs =>
      have hone : (q.account = p.account ∧ q.amount = p.amount ∧ q.currency = p.currency ∧ q.layer = p.layer ∧
          q.dimensions = p.dimensions ∧ q.direction = p.direction.inverse) ↔ q = p.inverted := by
        cases q
        simp only [Posting.inverted, Posting.mk.injEq]
        tauto
      have hrest := ih qs
      simp only [Bool.and_eq_true, decide_eq_true_eq] at hrest
      simp only [List.length_cons, Nat.add_right_cancel_iff, List.zip_cons_cons, List.all_cons, Bool.and_eq_true,
        decide_eq_true_eq, List.map_cons, List.cons.injEq, ← hrest, hone]
      tauto

variable [Blake3 H]

theorem checkReversal_spec {j : Journal H P} {entry : Entry H .balanced P} {original : EntryId} :
    j.checkReversal entry original = .ok () ↔ ∃ t, j.get original = some t ∧ j.reversedBy.get? original = none ∧
      t.reverses = none ∧ entry.postings = t.postings.map (·.inverted) := by
  unfold checkReversal
  cases j.get original with
  | none => simp
  | some t =>
    cases j.reversedBy.get? original with
    | some existing => simp
    | none =>
      cases ht : t.reverses with
      | some o => simp [ht]
      | none =>
        by_cases hinv : isInversionOf t entry = true
        · simp [ht, hinv, isInversionOf_iff.1 hinv]
        · have hne : ¬ entry.postings = t.postings.map (·.inverted) := fun h => hinv (isInversionOf_iff.2 h)
          simp [ht, hinv, hne]

/-! ## Reversals on file -/

omit [Blake3 H] in
/-- A reversal names an earlier entry that is no reversal, inverts it, and is its only one. -/
structure Corrects (entries : List (Entry H .balanced P)) : Prop where
  target : ∀ (i : Nat) (e : Entry H .balanced P) (original : EntryId), entries[i]? = some e → e.reverses = some original →
    ∃ (k : Nat) (t : Entry H .balanced P), k < i ∧ entries[k]? = some t ∧ t.id = original ∧ t.reverses = none ∧
      e.postings = t.postings.map (·.inverted)
  once : ∀ (i i' : Nat) (e e' : Entry H .balanced P) (original : EntryId), entries[i]? = some e →
    entries[i']? = some e' → e.reverses = some original → e'.reverses = some original → i = i'

omit [Blake3 H] in
theorem corrects_nil : Corrects ([] : List (Entry H .balanced P)) where
  target i e original hi := by simp at hi
  once i i' e e' original hi := by simp at hi

theorem Mapped.target {j : Journal H P} (hm : j.Mapped) {entry : Entry H .balanced P} {b : TrialBalance P}
    (hacc : Accepted j entry b) {original : EntryId} (ho : entry.reverses = some original) :
    ∃ t ∈ j.entries, t.id = original ∧ t.reverses = none ∧ entry.postings = t.postings.map (·.inverted) := by
  obtain ⟨t, hget, -, hrev, hinv⟩ := checkReversal_spec.1 (hacc.reverses original ho).2
  obtain ⟨ht, hid⟩ := hm.get_eq_some hget
  exact ⟨t, ht, hid, hrev, hinv⟩

theorem Corrects.store {j : Journal H P} (h : Corrects j.entries) (hm : j.Mapped) {entry : Entry H .balanced P}
    {b : TrialBalance P} (hacc : Accepted j entry b) : Corrects (j.store entry b).entries where
  target i e original hi ho := by
    rcases getElem?_concat_eq_some.1 hi with hi | ⟨rfl, rfl⟩
    · obtain ⟨k, t, hlt, hk, ht⟩ := h.target i e original hi ho
      exact ⟨k, t, hlt, getElem?_concat_eq_some.2 (.inl hk), ht⟩
    · obtain ⟨t, hmem, ht⟩ := hm.target hacc ho
      obtain ⟨k, hk⟩ := List.mem_iff_getElem?.1 hmem
      obtain ⟨hlt, -⟩ := List.getElem?_eq_some_iff.1 hk
      exact ⟨k, t, hlt, getElem?_concat_eq_some.2 (.inl hk), ht⟩
  once i i' e e' original hi hi' ho ho' := by
    -- an entry on file does not reverse what the new one does
    have hfresh : entry.reverses = some original → ∀ e ∈ j.entries, e.reverses ≠ some original := fun ho =>
      hm.reversal_fresh (hacc.reverses original ho).1
    rcases getElem?_concat_eq_some.1 hi with hold | ⟨rfl, rfl⟩
    · rcases getElem?_concat_eq_some.1 hi' with hold' | ⟨rfl, rfl⟩
      · exact h.once i i' e e' original hold hold' ho ho'
      · exact absurd ho (hfresh ho' e (List.mem_of_getElem? hold))
    · rcases getElem?_concat_eq_some.1 hi' with hold' | ⟨rfl, rfl⟩
      · exact absurd ho' (hfresh ho e' (List.mem_of_getElem? hold'))
      · rfl

variable [DecidableEq H]

theorem Corrects.operate {j : Journal H P} (h : Corrects j.entries) (hm : j.Mapped) (o : Operation H P) :
    Corrects (j.operate o).entries := by
  rcases j.operate_cases o with hs | ⟨new, happ, -⟩ | ⟨entries, e, -, hb⟩
  · rw [hs.entries]
    exact h
  · have hkept : (j.operate o).Mapped ∧ Corrects (j.operate o).entries :=
      happ.keepsAll (I := fun k => k.Mapped ∧ Corrects k.entries) ⟨hm, h⟩ fun k e b hk hacc =>
        ⟨hk.1.store hacc, hk.2.store hk.1 hacc⟩
    exact hkept.2
  · obtain ⟨balances, sites, heq⟩ := recordBatch_error hm.logged hb
    rw [heq]
    exact h

/-- **Reversals cancel their originals, each once.** In every journal, of any
entries, whatever was refused on the way. -/
theorem corrections_of_reachable {ledger : LedgerId} {j : Journal H P} (hj : (operations ledger).Reachable j) :
    Corrects j.entries ∧
    (∀ original id, j.reversedBy.get? original = some id ↔ ∃ e ∈ j.entries, e.reverses = some original ∧ e.id = id) ∧
    ∀ e ∈ j.entries, ∀ t ∈ j.entries, e.reverses = some t.id → ∀ key, net key (t.postings ++ e.postings) = 0 := by
  have hkept : j.Mapped ∧ Corrects j.entries := by
    refine LTS.Inductive.reachable (T := operations ledger) (I := fun j => j.Mapped ∧ Corrects j.entries) ⟨?_, ?_⟩ hj
    · intro j h
      obtain rfl : j = new ledger := h
      exact ⟨mapped_new ledger .permissive, corrects_nil⟩
    · intro j o j' h st
      obtain rfl : j' = j.operate o := st
      exact ⟨h.1.operate o, h.2.operate h.1 o⟩
  obtain ⟨hm, hc⟩ := hkept
  refine ⟨hc, hm.reversedBy, ?_⟩
  intro e he t ht ho key
  obtain ⟨i, hi⟩ := List.mem_iff_getElem?.1 he
  obtain ⟨k, t', -, hk, hid, -, hinv⟩ := hc.target i e t.id hi ho
  obtain rfl : t' = t := List.inj_on_of_nodup_map hm.ids (List.mem_of_getElem? hk) ht hid
  rw [hinv]
  exact net_inverted key t'.postings

/-! ## Original booking dates -/

omit [Blake3 H] [DecidableEq H] in
/-- A reversal states the booking date of its original, and no other entry states one. -/
def Dated (entries : List (Entry H .balanced P)) : Prop := ∀ e ∈ entries,
  (e.reverses = none → e.originalBookingDate = none) ∧
  ∀ original, e.reverses = some original → ∃ t ∈ entries, t.id = original ∧ e.originalBookingDate = some t.bookingDate

/-- What the dates on file need of an operation: a submitted entry that is not on file
yet states no date, or, where it reverses an entry on file or submitted before it, that
entry's. -/
def DatesStated (j : Journal H P) (o : Operation H P) : Prop :=
  ∀ earlier e later, j.offered o = earlier ++ e :: later → (∀ x ∈ j.entries, x.idempotencyKey ≠ e.idempotencyKey) →
    (e.reverses = none → e.originalBookingDate = none) ∧
    ∀ original, e.reverses = some original → ∀ t,
      (t ∈ j.entries ∨ t ∈ earlier ∧ ∀ x ∈ j.entries, x.idempotencyKey ≠ t.idempotencyKey) →
      t.id = original → e.originalBookingDate = some t.bookingDate

omit [Blake3 H] [DecidableEq H] in
theorem Dated.mono {l l' : List (Entry H .balanced P)} (h : Dated l) {e : Entry H .balanced P} (he : e ∈ l) (hsub : l ⊆ l') :
    (e.reverses = none → e.originalBookingDate = none) ∧ ∀ original, e.reverses = some original →
      ∃ t ∈ l', t.id = original ∧ e.originalBookingDate = some t.bookingDate := by
  refine ⟨(h e he).1, fun original ho => ?_⟩
  obtain ⟨t, ht, hd⟩ := (h e he).2 original ho
  exact ⟨t, hsub ht, hd⟩

omit [DecidableEq H] in
theorem Appends.dated {j k : Journal H P} {new : List (Entry H .balanced P)} (happ : Appends j new k) (hm : j.Mapped)
    (h : Dated j.entries) {o : Operation H P} (hsub : new.Sublist (j.offered o)) (ho : j.DatesStated o) :
    Dated k.entries := by
  induction happ with
  | nil => exact h
  | @snoc new k entry b happ hacc ih =>
    have hk : k.Mapped := happ.keepsAll hm fun _ _ _ hk hacc => hk.store hacc
    have hentries : k.entries = j.entries ++ new := happ.entries_eq
    obtain ⟨before, after, hsplit, hbefore, hafter⟩ := List.append_sublist_iff.1 hsub
    obtain ⟨between, later, rfl⟩ := List.append_of_mem (List.singleton_sublist.1 hafter)
    have hfresh : ∀ x ∈ j.entries, x.idempotencyKey ≠ entry.idempotencyKey := fun x hx =>
      hk.key_fresh hacc.key x (hentries ▸ List.mem_append_left _ hx)
    obtain ⟨hnone, hsome⟩ := ho (before ++ between) entry later (by rw [hsplit, List.append_assoc]) hfresh
    have hdated : Dated k.entries := ih ((List.sublist_append_left _ _).trans hsub)
    intro e he
    rcases List.mem_append.1 he with he | he
    · exact hdated.mono he (List.subset_append_left _ _)
    · obtain rfl := List.mem_singleton.1 he
      refine ⟨hnone, fun original horiginal => ?_⟩
      obtain ⟨t, ht, hid, -⟩ := hk.target hacc horiginal
      refine ⟨t, List.mem_append_left _ ht, hid, hsome original horiginal t ?_ hid⟩
      rw [hentries] at ht
      exact (List.mem_append.1 ht).imp_right fun hnew =>
        ⟨List.mem_append_left _ (hbefore.subset hnew), Mapped.fresh happ hk t hnew⟩

/-- **Dates stated right stay right.** In every run whose submitted entries state
the dates of their originals. -/
theorem reversals_dated {ledger : LedgerId} {j : Journal H P}
    (hj : ((operations ledger).restrict DatesStated).Reachable j) : Dated j.entries := by
  have hkept : j.Mapped ∧ Dated j.entries := by
    refine LTS.Inductive.reachable (T := (operations ledger).restrict DatesStated)
      (I := fun j => j.Mapped ∧ Dated j.entries) ⟨?_, ?_⟩ hj
    · intro j h
      obtain rfl : j = new ledger := h
      exact ⟨mapped_new ledger .permissive, fun _ he => absurd he List.not_mem_nil⟩
    · intro j o j' h st
      obtain ⟨rfl, ho⟩ := LTS.restrict_step.1 st
      refine ⟨h.1.operate o, ?_⟩
      rcases j.operate_cases o with hs | ⟨new, happ, hsub⟩ | ⟨entries, e, -, hb⟩
      · rw [hs.entries]
        exact h.2
      · exact happ.dated h.1 h.2 hsub ho
      · obtain ⟨balances, sites, heq⟩ := recordBatch_error h.1.logged hb
        rw [heq]
        exact h.2
  exact hkept.2

omit [Blake3 H] [DecidableEq H] in
/-- What `Entry::reverse` builds. -/
theorem reverse_fields (t : Entry H .balanced P) (id : EntryId) (key : IdempotencyKey) (date : Date) :
    (t.reverse id key date).reverses = some t.id ∧ (t.reverse id key date).originalBookingDate = some t.bookingDate := by
  unfold Entry.reverse
  rw [Entry.foldl_post]
  exact ⟨rfl, rfl⟩

omit [DecidableEq H] in
/-- A reversal built from an entry on file states its date. -/
theorem datesStated_reverse {j : Journal H P} (hm : j.Mapped) {t : Entry H .balanced P} (ht : t ∈ j.entries)
    (id : EntryId) (key : IdempotencyKey) (date : Date) :
    j.DatesStated (.mutate (.call (.record (t.reverse id key date)))) := by
  intro earlier e later hsplit _
  have hlist : ((t.reverse id key date).seal j.context).toOption.toList = earlier ++ e :: later := hsplit
  obtain ⟨hreverses, hdate⟩ := reverse_fields t id key date
  cases hseal : (t.reverse id key date).seal j.context with
  | error errors =>
    rw [hseal] at hlist
    simp [Except.toOption] at hlist
  | ok entry =>
    obtain ⟨-, rfl⟩ := Entry.seal_eq_ok.1 hseal
    rw [hseal] at hlist
    obtain ⟨rfl, hrest⟩ := List.append_eq_singleton_iff.1 hlist.symm |>.resolve_right (by simp)
    obtain ⟨rfl, -⟩ := List.cons.inj hrest
    refine ⟨fun hnone => ?_, fun original ho t' ht' hid => ?_⟩
    · rw [show ((t.reverse id key date).withState .balanced).reverses = _ from hreverses] at hnone
      cases hnone
    · have hid' : t.id = original := Option.some.inj (hreverses.symm.trans ho)
      have hfile : t' ∈ j.entries := ht'.resolve_right fun h => absurd h.1 List.not_mem_nil
      obtain rfl : t' = t := List.inj_on_of_nodup_map hm.ids hfile ht (hid.trans hid'.symm)
      exact hdate

omit [DecidableEq H] in
/-- An entry that reverses nothing and states no date. -/
theorem datesStated_plain (j : Journal H P) {k : Call H P} (hk : ∀ draft, k = .record draft →
    draft.reverses = none ∧ draft.originalBookingDate = none) : j.DatesStated (.mutate (.call k)) := by
  intro earlier e later hsplit _
  have he : e ∈ j.submitted (.call k) := by
    rw [show j.submitted (.call k) = earlier ++ e :: later from hsplit]
    simp
  obtain ⟨draft, rfl, hseal⟩ : ∃ draft, k = .record draft ∧ draft.seal j.context = .ok e := by
    cases k with
    | record draft => exact ⟨draft, rfl, toOption_eq_some.1 (Option.mem_toList.1 he)⟩
    | _ => cases he
  obtain ⟨hreverses, hdate⟩ := hk draft rfl
  obtain ⟨-, rfl⟩ := Entry.seal_eq_ok.1 hseal
  refine ⟨fun _ => hdate, fun original ho => ?_⟩
  rw [show (draft.withState .balanced).reverses = none from hreverses] at ho
  cases ho

theorem run_plain (ledger : LedgerId) (j : Journal H P) {ks : List (Call H P)} (hks : ∀ k ∈ ks, ∀ draft,
    k = .record draft → draft.reverses = none ∧ draft.originalBookingDate = none) :
    ((operations ledger).restrict DatesStated).Run j (ks.map fun k => .mutate (.call k)) (j.afterAll ks) := by
  induction ks generalizing j with
  | nil => exact .nil j
  | cons k ks ih =>
    have hstated := datesStated_plain j (hks k List.mem_cons_self)
    exact .cons ⟨rfl, hstated⟩ (ih _ fun k hk => hks k (List.mem_cons_of_mem _ hk))

/-! ## The sale of March, reversed in April -/

/-- The sale on file, and April open. -/
def aprilOpen : List (Call Preimage cents) := marchDefined ++ [.definePeriod april, .record saleOfMarch]

/-- As `Entry::reverse` builds it. -/
def reversalOfMarch : Entry Preimage .draft cents :=
  (saleOfMarch.withState .balanced).reverse (sale ⟨34, by decide⟩ april.start).id
    (sale ⟨34, by decide⟩ april.start).idempotencyKey april.start

/-- With a date of its own. -/
def misdated : Entry Preimage .draft cents := reversalOfMarch.reversing saleOfMarch.id april.start

/-- The books after the sale and a reversal of it. -/
def marchReversed (reversal : Entry Preimage .draft cents) : Journal Preimage cents :=
  ((new books).afterAll aprilOpen).mutate (.call (.record reversal))

theorem step_marchReversed (reversal : Entry Preimage .draft cents) : (operations books).step
    ((new books).afterAll aprilOpen) (.mutate (.call (.record reversal))) (marchReversed reversal) := rfl

theorem reachable_marchReversed (reversal : Entry Preimage .draft cents) :
    (operations books).Reachable (marchReversed reversal) :=
  ⟨_, _, rfl, (run_operations books _ aprilOpen).append (.single (step_marchReversed reversal))⟩

set_option maxRecDepth 10000 in
theorem marchReversed_entries :
    (marchReversed reversalOfMarch).entries = [saleOfMarch.withState .balanced, reversalOfMarch.withState .balanced] ∧
    (marchReversed misdated).entries = [saleOfMarch.withState .balanced, misdated.withState .balanced] := by
  decide

/-- Not vacuous: the reversal is on file, and cancels the sale. -/
theorem march_corrected : (marchReversed reversalOfMarch).entries.length = 2 ∧
    Corrects (marchReversed reversalOfMarch).entries ∧
    ∀ key, net key (saleOfMarch.postings ++ reversalOfMarch.postings) = 0 := by
  obtain ⟨hc, -, hnet⟩ := corrections_of_reachable (reachable_marchReversed reversalOfMarch)
  have hentries := marchReversed_entries.1
  refine ⟨by rw [hentries]; rfl, hc, fun key => ?_⟩
  refine hnet (reversalOfMarch.withState .balanced) ?_ (saleOfMarch.withState .balanced) ?_ rfl key
  · rw [hentries]
    exact List.mem_cons_of_mem _ List.mem_cons_self
  · rw [hentries]
    exact List.mem_cons_self

set_option maxRecDepth 10000 in
/-- Not vacuous: the reversal that `Entry::reverse` builds is on file. -/
theorem march_reversal_dated : (marchReversed reversalOfMarch).entries.length = 2 ∧
    Dated (marchReversed reversalOfMarch).entries := by
  have hopen : ∀ k ∈ aprilOpen, ∀ draft, k = .record draft → draft.reverses = none ∧ draft.originalBookingDate = none := by
    intro k hk draft hdraft
    subst hdraft
    obtain rfl : draft = saleOfMarch := by simpa [aprilOpen, marchDefined] using hk
    exact ⟨rfl, rfl⟩
  have hmapped : ((new books).afterAll aprilOpen : Journal Preimage cents).Mapped :=
    mapped_of_reachable ⟨_, _, rfl, run_operations books _ aprilOpen⟩
  have hsale : saleOfMarch.withState .balanced ∈ ((new books).afterAll aprilOpen : Journal Preimage cents).entries := by
    decide
  have hstated := datesStated_reverse hmapped hsale (sale ⟨34, by decide⟩ april.start).id
    (sale ⟨34, by decide⟩ april.start).idempotencyKey april.start
  refine ⟨by rw [marchReversed_entries.1]; rfl, ?_⟩
  exact reversals_dated ⟨_, _, rfl, (run_plain books _ hopen).append (.single ⟨step_marchReversed _, hstated⟩)⟩

/-- **A reversal with any date.** The reversal of the sale of 31 March is recorded as
one of a sale of 1 April. -/
theorem misdated_reversal : (operations books).Reachable (marchReversed misdated) ∧
    misdated.reverses = some saleOfMarch.id ∧ misdated.originalBookingDate = some april.start ∧
    saleOfMarch.bookingDate = march.end ∧ ¬ Dated (marchReversed misdated).entries := by
  refine ⟨reachable_marchReversed misdated, rfl, rfl, rfl, fun h => ?_⟩
  rw [marchReversed_entries.2] at h
  obtain ⟨t, ht, hid, hdate⟩ := (h (misdated.withState .balanced) (List.mem_cons_of_mem _ List.mem_cons_self)).2
    saleOfMarch.id rfl
  rcases List.mem_pair.1 ht with rfl | rfl
  · exact absurd hdate (by decide)
  · exact absurd hid (by decide)

end Journal

end DoubleEntry.L3
