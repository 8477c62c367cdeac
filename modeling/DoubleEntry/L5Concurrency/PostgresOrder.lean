import DoubleEntry.L3Ledger.Corrections
import DoubleEntry.L5Concurrency.PostgresPasses

/-!
# Batch order across transactions

A pass places the rows it picked in the order of `(insert_xid, entry_id)`. The new
entries of a batch share the transaction id, so their positions follow the identifiers
the caller chose and not the batch, and a reversal can be placed before its original
(`batch_reversed`). Where an insert keeps that order (`Txn.InsertsInOrder`), so does
every pass, in whichever pass the two rows are placed (`in_order`).

**Assumptions.** `KeepsOrder`, of each insert: a deferred transaction inserts in the order of the
identifiers, and a reversal finds its original with a position or sorting below it.

**Results.**
* `Txn.Next.ownOrder`, `Txn.Next.inPass`: an insert, and the statements of a pass.
* `OrderInv.commit_rows`, `OrderInv.commit_placements`: commits.
* `in_order`: every run of such steps.
* `batch_reversed`: a batch whose identifiers go the other way.
-/
namespace DoubleEntry.L5.Postgres

open DoubleEntry.Core DoubleEntry.L1 DoubleEntry.L2 DoubleEntry.L3 DoubleEntry.L4

/-! ## Rows in order -/

section
variable {H : Type} {P : Scale} {a b r : EntryRow H P} {h : Nat} {t t' : Txn H P} {committed committed' : Tables H P}
  {rows : List (EntryRow H P)}

/-- The order of a pass. -/
def Below (a b : EntryRow H P) : Prop :=
  a.insertXid < b.insertXid ∨ (a.insertXid = b.insertXid ∧ a.entry.id < b.entry.id)

instance (a b : EntryRow H P) : Decidable (Below a b) :=
  inferInstanceAs (Decidable (a.insertXid < b.insertXid ∨ (a.insertXid = b.insertXid ∧ a.entry.id < b.entry.id)))

/-- Where `b` has a position, `a` has a smaller one. -/
def Precedes (a b : EntryRow H P) : Prop := ∀ q ∈ b.placed, ∃ p ∈ a.placed, p.1 < q.1

/-- `a` precedes `b`, and will when a pass places them. -/
inductive Ahead (a b : EntryRow H P) : Prop
  | placed {p : Nat × H} (left : a.placed = some p) (later : ∀ q, b.placed = some q → p.1 < q.1)
  | waiting (left : a.placed = none) (right : b.placed = none) (below : Below a b)

theorem Ahead.precedes (h : Ahead a b) : Precedes a b := by
  intro q hq
  cases h with
  | @placed p left later => exact ⟨p, left, later q hq⟩
  | waiting left right below => cases right.symm.trans hq

theorem below_place {placements : List (EntryId × (Nat × H))} : Below (place placements a) b ↔ Below a b := by
  simp [Below]

/-- An `UPDATE` does not move a row behind one without a position. -/
theorem Ahead.place_left (h : Ahead a b) (hb : b.placed = none) (placements : List (EntryId × (Nat × H))) :
    Ahead (place placements a) b := by
  cases hplaced : (place placements a).placed with
  | some p => exact .placed hplaced fun q hq => by cases hb.symm.trans hq
  | none =>
    rw [place_cases, Option.or_eq_none_iff] at hplaced
    cases h with
    | placed left => cases hplaced.2.symm.trans left
    | waiting left right below => exact .waiting (by rw [place_cases, hplaced.1]; exact left) right (below_place.2 below)

theorem not_below_sequenceable (committed : Tables H P) (xmin : Nat) :
    (committed.sequenceable xmin).Pairwise fun a b => ¬ Below b a := by
  let le : EntryRow H P → EntryRow H P → Prop := fun a b =>
    a.insertXid < b.insertXid ∨ (a.insertXid = b.insertXid ∧ a.entry.id ≤ b.entry.id)
  have htotal : Std.Total le := ⟨fun a b => by
    rcases lt_trichotomy a.insertXid b.insertXid with hlt | heq | hlt
    · exact .inl (.inl hlt)
    · exact (le_total a.entry.id b.entry.id).imp (fun hle => .inr ⟨heq, hle⟩) fun hle => .inr ⟨heq.symm, hle⟩
    · exact .inr (.inl hlt)⟩
  have htrans : IsTrans (EntryRow H P) le := ⟨fun a b c hab hbc => by
    rcases hab with hab | ⟨hab, hid⟩ <;> rcases hbc with hbc | ⟨hbc, hid'⟩
    · exact .inl (hab.trans hbc)
    · exact .inl (hbc ▸ hab)
    · exact .inl (hab ▸ hbc)
    · exact .inr ⟨hab.trans hbc, hid.trans hid'⟩⟩
  refine (List.pairwise_insertionSort le _).imp fun {a b} hle hbelow => ?_
  rcases hle with hlt | ⟨heq, hid⟩ <;> rcases hbelow with hlt' | ⟨heq', hid'⟩
  · exact lt_asymm hlt hlt'
  · omega
  · omega
  · exact absurd hid' (not_lt.2 hid)

/-! ## A pass keeps the order -/

/-- What a pass has picked up to `h`, and in which order it places it. -/
structure Txn.PassOrder (h : Nat) (committed : Tables H P) (t : Txn H P) : Prop where
  pickedTo : t.PickedTo h committed
  below : ∀ r ∈ t.remaining, r.insertXid < h
  sorted : t.remaining.Pairwise fun a b => ¬ Below b a
  placed : ∀ r ∈ committed.entries, r.entry.id ∈ t.placements.map Prod.fst → r.insertXid < h
  order : ∀ a ∈ committed.entries, ∀ b ∈ committed.entries, Ahead a b →
    Ahead (place t.placements a) (place t.placements b)

namespace Txn.PassOrder

theorem frame (hp : t.PassOrder h committed) (hplacements : t'.placements = t.placements)
    (hremaining : t'.remaining = t.remaining) : t'.PassOrder h committed :=
  ⟨hp.pickedTo.frame hplacements hremaining, hremaining ▸ hp.below, hremaining ▸ hp.sorted, hplacements ▸ hp.placed,
    hplacements ▸ hp.order⟩

theorem of_sequenceable (hplacements : t.placements = []) (hremaining : t.remaining = committed.sequenceable h) :
    t.PassOrder h committed where
  pickedTo := pickedTo_sequenceable le_rfl hplacements hremaining
  below r hr := by
    rw [hremaining] at hr
    exact (Tables.mem_sequenceable.1 hr).2.2
  sorted := hremaining ▸ not_below_sequenceable committed h
  placed r _ hid := by simp [hplacements] at hid
  order a _ b _ hab := by simpa [hplacements] using hab

/-- The least of the rows left is placed after all that have a position. -/
theorem update {row : EntryRow H P} {p : Nat × H} (hp : t.PassOrder h committed) (control : t.control = .update row)
    (hmem : row ∈ committed.entries) (hrow : (place t.placements row).placed = none)
    (hunique : (committed.entries.map (·.entry.id)).Nodup)
    (hlast : ∀ x ∈ committed.entries, ∀ q, (place t.placements x).placed = some q → q.1 < p.1)
    (hplacements : t'.placements = (row.entry.id, p) :: t.placements) (hremaining : t'.remaining = t.picked) :
    t'.PassOrder h committed := by
  have hleft : t.remaining = row :: t.picked := by rw [remaining, control]
  have hsorted := hp.sorted
  have hbelow := hp.below
  rw [hleft] at hsorted hbelow
  rw [List.pairwise_cons] at hsorted
  -- only `row` has its identifier
  have is_row : ∀ x ∈ committed.entries, x.entry.id = row.entry.id → x = row := fun x hx hid =>
    List.inj_on_of_nodup_map hunique hx hmem hid
  have placed_row : place t'.placements row = { place t.placements row with placed := some p } := by
    rw [hplacements, place_cons, place_toLogged, if_pos rfl]
  have placed_other : ∀ x : EntryRow H P, x.entry.id ≠ row.entry.id →
      place t'.placements x = place t.placements x := fun x hne => by
    rw [hplacements, place_cons, place_toLogged]
    exact if_neg hne
  refine ⟨hp.pickedTo.placed control hplacements hremaining, ?_, ?_, fun r hr hid => ?_, fun a ha b hb hab => ?_⟩
  · rw [hremaining]
    exact fun r hr => hbelow r (List.mem_cons_of_mem _ hr)
  · rw [hremaining]
    exact hsorted.2
  · rw [hplacements, List.map_cons, List.mem_cons] at hid
    rcases hid with hid | hid
    · rw [is_row r hr hid]
      exact hbelow row List.mem_cons_self
    · exact hp.placed r hr hid
  · have hbefore := hp.order a ha b hb hab
    by_cases hbr : b.entry.id = row.entry.id
    · obtain rfl := is_row b hb hbr
      rw [placed_row]
      cases hbefore with
      | @placed q left later =>
        have hne : a.entry.id ≠ b.entry.id := fun hid => by
          rw [is_row a ha hid, hrow] at left
          cases left
        rw [placed_other a hne]
        refine .placed left fun q' hq' => ?_
        cases hq'
        exact hlast a ha q left
      | waiting left right below =>
        -- what is below the next row has a position already
        rw [below_place] at below
        have below : Below a b := by simpa [Below] using below
        have hxid : a.insertXid < h := by
          have := hbelow b List.mem_cons_self
          rcases below with hlt | ⟨heq, -⟩ <;> omega
        rcases hp.pickedTo a ha hxid with hplaced | hpicked
        · rw [left] at hplaced
          cases hplaced
        · rw [hleft] at hpicked
          rcases List.mem_cons.1 hpicked with rfl | hpicked
          · simp [Below] at below
          · exact absurd below (hsorted.1 a hpicked)
    · rw [placed_other b hbr]
      by_cases har : a.entry.id = row.entry.id
      · obtain rfl := is_row a ha har
        rw [placed_row]
        cases hbefore with
        | placed left => cases hrow.symm.trans left
        | waiting left right => exact .placed rfl fun q hq => by cases right.symm.trans hq
      · rw [placed_other a har]
        exact hbefore

/-- Rows that others commit meanwhile come after those it picked. -/
theorem grow (hp : t.PassOrder h committed) (g : Grows committed committed' rows) (hrows : ∀ r ∈ rows, h ≤ r.insertXid)
    (hids : ∀ id ∈ t.placements.map Prod.fst, id ∈ committed.entries.map (·.entry.id)) :
    t.PassOrder h committed' := by
  have kept : ∀ r ∈ rows, place t.placements r = r := fun r hr => place_other fun hid => g.fresh r hr (hids _ hid)
  refine ⟨hp.pickedTo.grow g.entries hrows, hp.below, hp.sorted, fun r hr hid => ?_, fun a ha b hb hab => ?_⟩
  · rw [g.entries] at hr
    rcases List.mem_append.1 hr with hr | hr
    · exact hp.placed r hr hid
    · exact absurd (hids _ hid) (g.fresh r hr)
  · rw [g.entries] at ha hb
    rcases List.mem_append.1 ha with ha | ha <;> rcases List.mem_append.1 hb with hb | hb
    · exact hp.order a ha b hb hab
    · rw [kept b hb]
      exact hab.place_left (g.unplaced b hb) _
    · -- the row that waits for the new one is not below the watermark
      rw [kept a ha]
      cases hab with
      | placed left => cases (g.unplaced a ha).symm.trans left
      | waiting left right below =>
        have hb' : place t.placements b = b := place_other fun hid => by
          have hlt := hp.placed b hb hid
          have hle := hrows a ha
          rcases below with hlt' | ⟨heq, -⟩ <;> omega
        rw [hb']
        exact .waiting left right below
    · rw [kept a ha, kept b hb]
      exact hab

end Txn.PassOrder

end

/-! ## What an insert has to keep -/

section
variable {H : Type} [Blake3 H] {P : Scale} {s s' : Db H P} {i : Nat} {t t' : Txn H P} {e : Entry H .balanced P}
  {log : List (Logged H P)} {entries : List (EntryRow H P)}

/-- The entry a statement inserts. -/
def Txn.inserting (t : Txn H P) (committed : Tables H P) : Option (Entry H .balanced P) :=
  match t.control with
  | .insert e =>
    let view := t.view committed
    if ¬ t.takesXid ∧ (view.byKey e.idempotencyKey).isNone ∧ (view.insertRow (t.rowOf e)).isSome then some e else none
  | _ => none

/-- The insert comes after those of its batch and after what it reverses: without a
position, by transaction and identifier. -/
structure Txn.InsertsInOrder (committed : Tables H P) (t : Txn H P) (e : Entry H .balanced P) : Prop where
  batch : t.job = .deferred → ∀ r ∈ t.rows, r.entry.id < e.id
  reversal : ∀ original ∈ e.reverses, ∃ o ∈ (t.view committed).entries, o.entry.id = original ∧
    (o.placed.isSome ∨ (t.job = .deferred ∧ Below o (t.rowOf e)))

instance (committed : Tables H P) (t : Txn H P) (e : Entry H .balanced P) : Decidable (t.InsertsInOrder committed e) :=
  decidable_of_iff ((t.job = .deferred → ∀ r ∈ t.rows, r.entry.id < e.id) ∧
    ∀ original ∈ e.reverses, ∃ o ∈ (t.view committed).entries, o.entry.id = original ∧
      (o.placed.isSome ∨ (t.job = .deferred ∧ Below o (t.rowOf e)))) ⟨fun h => ⟨h.1, h.2⟩, fun h => ⟨h.1, h.2⟩⟩

/-- A statement that inserts does so in order. -/
def KeepsOrder (s : Db H P) : Label H P → Prop
  | .statement i => ∀ t ∈ s.txns[i]?, ∀ e ∈ t.inserting s.tables, t.InsertsInOrder s.tables e
  | _ => True

instance (s : Db H P) (l : Label H P) : Decidable (KeepsOrder s l) :=
  match l with
  | .statement i => inferInstanceAs (Decidable (∀ t ∈ s.txns[i]?, ∀ e ∈ t.inserting s.tables, t.InsertsInOrder s.tables e))
  | .begin .. => .isTrue trivial
  | .fail _ => .isTrue trivial
  | .registerAccount _ => .isTrue trivial

omit [Blake3 H] in
theorem LogOf.lt [Blake3 H] (h : LogOf entries log) {r : EntryRow H P} (hr : r ∈ entries) {p : Nat × H}
    (hp : r.placed = some p) : p.1 < log.length := by
  have hmem : (p, r.toLogged) ∈ placedRows entries := List.mem_filterMap.2 ⟨r, hr, by simp [hp]⟩
  exact (List.getElem?_eq_some_iff.1 (mem_numbered.1 (h.mem_iff.1 hmem)).1).1

/-- The rows of a transaction are in order, and after what they reverse. -/
structure Txn.OwnOrder (entries : List (EntryRow H P)) (t : Txn H P) : Prop where
  rows : t.rows.Pairwise Ahead
  reversals : ∀ b ∈ t.rows, ∀ original ∈ b.entry.reverses, ∃ a ∈ entries ++ t.rows, a.entry.id = original ∧ Ahead a b

namespace Txn.OwnOrder

omit [Blake3 H] in
theorem of_rows_nil (h : t.rows = []) : t.OwnOrder entries := ⟨by simp [h], by simp [h]⟩

omit [Blake3 H] in
theorem frame (h : t.OwnOrder entries) (hrows : t'.rows = t.rows) : t'.OwnOrder entries :=
  ⟨hrows ▸ h.rows, hrows ▸ h.reversals⟩

/-- A row is inserted: under the lock it is the last of the log, without the lock it
waits behind the rows of its transaction. -/
theorem insert {committed : Tables H P} (h : t.OwnOrder committed.entries)
    (hlog : t.Defers ∨ ∃ more, t.Appends committed log more []) (hxid : ∀ r ∈ t.rows, t.xid = some r.insertXid)
    (hin : t.InsertsInOrder committed e) (hrows : t'.rows = t.rows ++ [t.rowOf e]) : t'.OwnOrder committed.entries := by
  have hview : (t.view committed).entries = committed.entries ++ t.rows :=
    Txn.view_entries (hlog.elim (·.placements) fun ⟨_, h⟩ => h.updates) _
  -- under the lock every position there is, is before the next
  have later : ∀ {more}, t.Appends committed log more [] → ∀ o ∈ (t.view committed).entries, o.placed.isSome →
      Ahead o (t.rowOf e) := fun ha o ho hsome => by
    obtain ⟨p, hp⟩ := Option.isSome_iff_exists.1 hsome
    have hl := ha.logOf
    rw [List.append_nil] at hl
    have hplaced : (t.rowOf e).placed = some (t.tail.place e.contentHash) := if_pos ha.job
    have hindex := congrArg Prod.fst (ha.tailOf.place (x := (t.rowOf e).toLogged))
    refine .placed hp fun q hq => ?_
    rw [hplaced] at hq
    cases hq
    exact (LogOf.lt hl ho hp).trans_eq hindex.symm
  have unplaced : t.Defers → (t.rowOf e).placed = none := fun hd => if_neg (by simp [hd.job])
  refine ⟨?_, fun b hb original ho => ?_⟩
  · rw [hrows, List.pairwise_append]
    refine ⟨h.rows, List.pairwise_singleton _ _, fun a ha b hb => ?_⟩
    rw [List.mem_singleton.1 hb]
    rcases hlog with hd | ⟨more, happ⟩
    · refine .waiting (hd.rows a ha) (unplaced hd) (.inr ⟨?_, hin.batch hd.job a ha⟩)
      rw [Txn.rowOf, hxid a ha]
      rfl
    · exact later happ a (hview ▸ List.mem_append_right _ ha) (happ.inserted a ha)
  · rw [hrows] at hb ⊢
    rw [← List.append_assoc]
    rcases List.mem_append.1 hb with hb | hb
    · obtain ⟨a, ha, hid, hab⟩ := h.reversals b hb original ho
      exact ⟨a, List.mem_append_left _ ha, hid, hab⟩
    · rw [List.mem_singleton.1 hb] at ho ⊢
      obtain ⟨o, hmem, hid, hor⟩ := hin.reversal original ho
      refine ⟨o, List.mem_append_left _ (hview ▸ hmem), hid, ?_⟩
      rcases hlog with hd | ⟨more, happ⟩
      · cases hplaced : o.placed with
        | some p => exact .placed hplaced fun q hq => by cases (unplaced hd).symm.trans hq
        | none => exact .waiting hplaced (unplaced hd) (hor.resolve_left (by simp [hplaced])).2
      · exact later happ o hmem (hor.resolve_right fun hd => by simp [happ.job] at hd)

end Txn.OwnOrder
end

/-! ## Runs that keep the order -/

section
variable {H : Type} [Blake3 H] {P : Scale} {s s' : Db H P} {i : Nat} {t t' u : Txn H P} {log : List (Logged H P)}
  {committed : Tables H P} {entries entries' : List (EntryRow H P)}

namespace Txn

theorem Next.job {others : List (Txn H P)} {xmin : Nat} (next : t.Next committed others xmin t') :
    t'.control = .ended ∨ t'.job = t.job := by
  cases next with
  | finished => exact .inl rfl
  | inserted => exact .inr (by simp)
  | unlimited => exact .inr (by simp)
  | permitted => exact .inr (by simp)
  | _ => exact .inr rfl

/-- A pass has picked its rows, up to a horizon. -/
def InPass (s : Db H P) (t : Txn H P) : Prop :=
  t.job = .pass → t.HasPicked → t.control ≠ .ended → ∃ h, Horizon h s ∧ t.PassOrder h s.tables

/-- The next row of a pass is placed after all that have a position. -/
theorem PassOrder.next {h : Nat} {row : EntryRow H P} (hp : t.PassOrder h committed) (hlog : t.InLog committed log)
    (control : t.control = .update row) (hunique : (committed.entries.map (·.entry.id)).Nodup)
    (hplacements : t'.placements = (row.entry.id, t.tail.place row.contentHash) :: t.placements)
    (hremaining : t'.remaining = t.picked) : t'.PassOrder h committed := by
  rw [InLog, control] at hlog
  obtain ⟨more, hlog⟩ := hlog
  have hview : (t.view committed).entries = committed.entries.map (place t.placements) := by
    rw [view, hlog.inserted, List.append_nil]
  obtain ⟨hmem, hnone⟩ := hlog.left row List.mem_cons_self
  have hl := hlog.logOf
  rw [List.append_nil] at hl
  rw [hview] at hmem hl
  obtain ⟨x, hx, rfl⟩ := List.mem_map.1 hmem
  -- the row picked is the committed one
  have hplaced := hnone
  rw [place_cases, Option.or_eq_none_iff] at hplaced
  have hself : place t.placements x = x := by rw [place_cases, hplaced.1, Option.none_or]
  rw [hself] at control hplacements hlog
  refine hp.update control hx hnone hunique (fun y hy q hq => ?_) hplacements hremaining
  have hindex := congrArg Prod.fst (hlog.tailOf.place (x := x.toLogged))
  exact (LogOf.lt hl (List.mem_map_of_mem hy) hq).trans_eq hindex.symm

end Txn

/-- `j` is in the rows, and `i` in this relation to it. -/
def Follows (R : EntryRow H P → EntryRow H P → Prop) (entries : List (EntryRow H P)) (i j : EntryId) : Prop :=
  ∃ a ∈ entries, ∃ b ∈ entries, a.entry.id = i ∧ b.entry.id = j ∧ R a b

omit [Blake3 H] in
theorem Follows.mono {R : EntryRow H P → EntryRow H P → Prop} {i j : EntryId} (h : Follows R entries i j)
    (hs : ∀ r ∈ entries, r ∈ entries') : Follows R entries' i j := by
  obtain ⟨a, ha, b, hb, hi, hj, hab⟩ := h
  exact ⟨a, hs a ha, b, hs b hb, hi, hj, hab⟩

/-- What is committed is in order, and what is in flight. -/
structure OrderInv (s : Db H P) : Prop where
  batches : ∀ out ∈ s.commits, (newIds out).Pairwise (Follows Ahead s.tables.entries)
  reversals : ∀ r ∈ s.tables.entries, ∀ original ∈ r.entry.reverses,
    Follows Ahead s.tables.entries original r.entry.id
  own : ∀ t ∈ s.txns, t.OwnOrder s.tables.entries
  passes : ∀ t ∈ s.txns, t.InPass s

theorem Txn.InPass.step [DecidableEq H] {ledger : LedgerId} {l : Label H P} (h : u.InPass s)
    (st : (postgres ledger).step s l s') (htables : s'.tables = s.tables) : u.InPass s' := fun hjob hpicked hended => by
  obtain ⟨h, hh, hp⟩ := h hjob hpicked hended
  exact ⟨h, horizon_stable ledger s l s' hh st, htables ▸ hp⟩

omit [Blake3 H] in
theorem Txn.InPass.finished : (Txn.finished : Txn H P).InPass s := fun _ _ h => absurd rfl h

omit [Blake3 H] in
theorem Txn.OwnOrder.finished : (Txn.finished : Txn H P).OwnOrder entries := .of_rows_nil rfl

/-- The insert of an entry is in order. -/
theorem Txn.Next.ownOrder {others : List (Txn H P)} {xmin : Nat} (next : t.Next committed others xmin t')
    (takes : t.takesXid = false) (h : t.OwnOrder committed.entries) (hlog : t.InLog committed log)
    (hxid : ∀ r ∈ t.rows, t.xid = some r.insertXid) (ok : ∀ e ∈ t.inserting committed, t.InsertsInOrder committed e) :
    t'.OwnOrder committed.entries := by
  cases next with
  | finished => exact .finished
  | @inserted e seen control fresh alone holds =>
    have hin : t.inserting committed = some e := by simp [inserting, control, takes, fresh, holds]
    rw [InLog, control] at hlog
    exact h.insert hlog hxid (ok e hin) rows_nextClaim
  | unlimited => exact h.frame rows_nextClaim
  | permitted => exact h.frame rows_nextClaim
  | _ => exact h.frame rfl

/-- The statements of a pass keep its rows in order. -/
theorem Txn.Next.inPass (next : t.Next s.tables (s.txns.eraseIdx i) s.xmin t') (hs : LogState s log) (hx : XidInv s)
    (ht : t.InLog s.tables log) (h : t.InPass s) : t'.InPass s := by
  intro hjob hpicked hended
  have hpass : t.job = .pass := (next.job.resolve_left hended).symm.trans hjob
  obtain ⟨-, hm⟩ := (next.passMove ht hpass).resolve_left hended
  have hended' : t.control ≠ .ended := fun h => hended (next.ended h)
  cases hm with
  | finished after => exact absurd after hended
  | locked after => exact absurd after hpicked.2
  | picked placements remaining => exact ⟨s.xmin, horizon_xmin hx, .of_sequenceable placements remaining⟩
  | same before placements remaining =>
    obtain ⟨h, hh, hp⟩ := h hpass before hended'
    exact ⟨h, hh, hp.frame placements remaining⟩
  | placed control placements remaining =>
    obtain ⟨h, hh, hp⟩ := h hpass ⟨by simp [control], by simp [control]⟩ hended'
    exact ⟨h, hh, hp.next ht control hs.logInv.unique placements remaining⟩

/-! ### Steps -/

theorem OrderInv.commit_rows (ho : OrderInv s) (hs : LogState s log) (hx : XidInv s) (ha : AnswersInv s)
    (slot : s.txns[i]? = some t) (control : t.control = .commit) (hplacements : t.placements = [])
    (hpasses : ∀ u ∈ s.txns.eraseIdx i, ∀ h, Horizon h s → Horizon h (s.commit i t)) : OrderInv (s.commit i t) := by
  obtain ⟨hown, hothers⟩ := (forall_slot slot).1 ho.own
  obtain ⟨-, hpass⟩ := (forall_slot slot).1 ho.passes
  obtain ⟨htlog, hlogs⟩ := (forall_slot slot).1 hs.txns
  obtain ⟨hanswered, -⟩ := (forall_slot slot).1 ha.txns
  have hview : (s.commit i t).tables.entries = s.tables.entries ++ t.rows := Txn.view_entries hplacements _
  have kept : ∀ r ∈ s.tables.entries, r ∈ (s.commit i t).tables.entries := fun r hr => by
    rw [hview]
    exact List.mem_append_left _ hr
  have own : ∀ r ∈ t.rows, r ∈ (s.commit i t).tables.entries := fun r hr => by
    rw [hview]
    exact List.mem_append_right _ hr
  refine ⟨fun out hout => ?_, fun b hb original horig => ?_, (forall_set_slot slot).2 ⟨.finished, fun u hu => ?_⟩,
    (forall_set_slot slot).2 ⟨.finished, fun u hu hjob hpicked hended => ?_⟩⟩
  · rcases List.mem_append.1 hout with hout | hout
    · exact (ho.batches out hout).imp fun h => h.mono kept
    · -- the new entries are the rows, in the order of their inserts
      rw [List.mem_singleton.1 hout]
      have hnew := hanswered.new
      rw [Txn.claiming, control, Option.map_none, Option.toList_none, List.append_nil] at hnew
      rw [← hnew]
      refine List.pairwise_map.2 (hown.rows.imp_of_mem fun {a b} ha hb hab => ?_)
      exact ⟨a, own a ha, b, own b hb, rfl, rfl, hab⟩
  · have hb' := hb
    rw [hview] at hb'
    rcases List.mem_append.1 hb' with hold | hnew
    · exact (ho.reversals b hold original horig).mono kept
    · obtain ⟨a, ha, hid, hab⟩ := hown.reversals b hnew original horig
      exact ⟨a, hview ▸ ha, b, hb, hid, rfl, hab⟩
  · refine ⟨(hothers u hu).rows, fun b hb original horig => ?_⟩
    obtain ⟨a, ha, hid, hab⟩ := (hothers u hu).reversals b hb original horig
    exact ⟨a, List.mem_append.2 ((List.mem_append.1 ha).imp_left (kept a)), hid, hab⟩
  · obtain ⟨h, hh, hp⟩ := hpass u hu hjob hpicked hended
    -- the pass has the lock, so these rows have no position
    have hheld := (hlogs u hu).pass_locked hjob hpicked.1 hended
    have hfree : t.appendLock ≠ true := fun h => ((pairwise_slot both_symm slot).1 hs.lock).1 u hu ⟨h, hheld⟩
    obtain ⟨hn, -, hsubtrees⟩ := htlog.unlocked_commit control hfree
    refine ⟨h, hpasses u hu h hh, hp.grow (hs.grows slot hn hplacements hsubtrees) (fun r hr => ?_) (hlogs u hu).placements⟩
    exact hh.taken t (List.mem_of_getElem? slot) _ (hx.rows t (List.mem_of_getElem? slot) r hr)

theorem OrderInv.commit_placements (ho : OrderInv s) (hs : LogState s log) (ha : AnswersInv s)
    (slot : s.txns[i]? = some t) (control : t.control = .commit) (hplacements : t.placements ≠ []) :
    OrderInv (s.commit i t) := by
  obtain ⟨-, hothers⟩ := (forall_slot slot).1 ho.own
  obtain ⟨hpass, -⟩ := (forall_slot slot).1 ho.passes
  obtain ⟨htlog, hlogs⟩ := (forall_slot slot).1 hs.txns
  obtain ⟨hanswered, -⟩ := (forall_slot slot).1 ha.txns
  obtain ⟨hheld, hjob, hrows⟩ : t.appendLock = true ∧ t.job = .pass ∧ t.rows = [] := by
    rw [Txn.InLog, control] at htlog
    rcases htlog with hd | ⟨hnone, -⟩ | hl
    · exact absurd hd.placements hplacements
    · exact absurd hnone.placements hplacements
    · exact ⟨hl.appendLock, hl.writes.resolve_left hplacements⟩
  obtain ⟨h, -, hp⟩ := hpass hjob ⟨by simp [control], by simp [control]⟩ (by simp [control])
  have hfree : ∀ u ∈ s.txns.eraseIdx i, u.appendLock ≠ true := fun u hu h =>
    ((pairwise_slot both_symm slot).1 hs.lock).1 u hu ⟨hheld, h⟩
  have hview : (s.commit i t).tables.entries = s.tables.entries.map (place t.placements) := by
    rw [Db.commit, Txn.view, hrows, List.append_nil]
  have follows : ∀ {i' j : EntryId}, Follows Ahead s.tables.entries i' j →
      Follows Ahead (s.commit i t).tables.entries i' j := fun hf => by
    obtain ⟨a, ha, b, hb, hi, hj, hab⟩ := hf
    rw [hview]
    exact ⟨_, List.mem_map_of_mem ha, _, List.mem_map_of_mem hb, by rw [place_toLogged, hi], by rw [place_toLogged, hj],
      hp.order a ha b hb hab⟩
  refine ⟨fun out hout => ?_, fun b hb original horig => ?_, (forall_set_slot slot).2 ⟨.finished, fun u hu => ?_⟩,
    (forall_set_slot slot).2 ⟨.finished, fun u hu hjob hpicked hended => ?_⟩⟩
  · rcases List.mem_append.1 hout with hout | hout
    · exact (ho.batches out hout).imp follows
    · -- a pass answers nothing
      rw [List.mem_singleton.1 hout]
      have hnew := hanswered.new
      rw [hrows, List.map_nil] at hnew
      rw [(List.append_eq_nil_iff.1 hnew.symm).1]
      exact .nil
  · rw [hview] at hb
    obtain ⟨r, hr, rfl⟩ := List.mem_map.1 hb
    rw [place_toLogged] at horig ⊢
    exact follows (ho.reversals r hr original horig)
  · refine ⟨(hothers u hu).rows, fun b hb original horig => ?_⟩
    obtain ⟨a, ha, hid, hab⟩ := (hothers u hu).reversals b hb original horig
    rw [hview]
    rcases List.mem_append.1 ha with ha | ha
    · refine ⟨_, List.mem_append_left _ (List.mem_map_of_mem ha), by rw [place_toLogged, hid], ?_⟩
      exact hab.place_left ((hlogs u hu).unplaced (hfree u hu) b hb) _
    · exact ⟨a, List.mem_append_right _ ha, hid, hab⟩
  · exact absurd ((hlogs u hu).pass_locked hjob hpicked.1 hended) (hfree u hu)

/-- **A step that keeps the order keeps what is in order.** -/
theorem OrderInv.step [DecidableEq H] {ledger : LedgerId} {l : Label H P} (ho : OrderInv s)
    (hr : (postgres ledger).Reachable s) (st : (postgres ledger).step s l s') (ok : KeepsOrder s l) : OrderInv s' := by
  obtain ⟨log, hs⟩ := logState_of_reachable hr
  have hx := (xidInv_inductive ledger).reachable hr
  have ha := (answersInv_inductive ledger).reachable hr
  cases Db.step_cases st with
  | begun job batch =>
    refine ⟨ho.batches, ho.reversals, fun t ht => ?_, fun t ht => ?_⟩ <;> rcases List.mem_append.1 ht with ht | ht
    · exact ho.own t ht
    · rw [List.mem_singleton.1 ht]
      exact .of_rows_nil Txn.rows_start
    · exact (ho.passes t ht).step st rfl
    · rw [List.mem_singleton.1 ht]
      intro hjob hpicked
      cases job with
      | pass => exact absurd rfl hpicked.1
      | deferred => cases hjob
      | inline => cases hjob
      | other => cases hjob
  | xidTaken slot =>
    obtain ⟨hown, hothers⟩ := (forall_slot slot).1 ho.own
    obtain ⟨hpass, hpasses⟩ := (forall_slot slot).1 ho.passes
    refine ⟨ho.batches, ho.reversals, (forall_set_slot slot).2 ⟨hown.frame rfl, hothers⟩,
      (forall_set_slot slot).2 ⟨fun hjob hpicked hended => ?_, fun u hu => (hpasses u hu).step st rfl⟩⟩
    obtain ⟨h, hh, hp⟩ := hpass hjob hpicked hended
    exact ⟨h, horizon_stable ledger s _ _ hh st, hp.frame rfl rfl⟩
  | @ran i t t' slot takes next =>
    obtain ⟨hown, hothers⟩ := (forall_slot slot).1 ho.own
    obtain ⟨hpass, hpasses⟩ := (forall_slot slot).1 ho.passes
    obtain ⟨htlog, -⟩ := (forall_slot slot).1 hs.txns
    refine ⟨ho.batches, ho.reversals, (forall_set_slot slot).2 ⟨?_, hothers⟩, (forall_set_slot slot).2 ⟨?_, fun u hu => ?_⟩⟩
    · exact next.ownOrder takes hown htlog (hx.rows t (List.mem_of_getElem? slot)) (ok t slot)
    · exact (next.inPass hs hx htlog hpass).step st rfl
    · exact (hpasses u hu).step st rfl
  | @committed i t slot control =>
    by_cases hplacements : t.placements = []
    · exact ho.commit_rows hs hx ha slot control hplacements fun u hu h hh => horizon_stable ledger s _ _ hh st
    · exact ho.commit_placements hs ha slot control hplacements
  | failed slot =>
    refine ⟨ho.batches, ho.reversals, (forall_set_slot slot).2 ⟨.finished, ((forall_slot slot).1 ho.own).2⟩,
      (forall_set_slot slot).2 ⟨.finished, fun u hu => ?_⟩⟩
    exact (((forall_slot slot).1 ho.passes).2 u hu).step st rfl
  | registered registers =>
    obtain ⟨accounts, rfl⟩ := Tables.registerAccount_eq_ok registers
    have g : Grows s.tables { s.tables with accounts := accounts } [] :=
      ⟨(List.append_nil _).symm, rfl, fun _ hr => (List.not_mem_nil hr).elim, fun _ hr => (List.not_mem_nil hr).elim⟩
    refine ⟨ho.batches, ho.reversals, ho.own, fun t ht hjob hpicked hended => ?_⟩
    obtain ⟨h, hh, hp⟩ := ho.passes t ht hjob hpicked hended
    exact ⟨h, horizon_stable ledger s _ _ hh st, hp.grow g (by simp) (hs.txns t ht).placements⟩

end

/-! ### The log in order -/

instance {H : Type} {P : Scale} (a b : EntryRow H P) : Decidable (Precedes a b) :=
  inferInstanceAs (Decidable (∀ q ∈ b.placed, ∃ p ∈ a.placed, p.1 < q.1))

instance {H : Type} {P : Scale} {R : EntryRow H P → EntryRow H P → Prop} [DecidableRel R] (entries : List (EntryRow H P))
    (i j : EntryId) : Decidable (Follows R entries i j) :=
  inferInstanceAs (Decidable (∃ a ∈ entries, ∃ b ∈ entries, a.entry.id = i ∧ b.entry.id = j ∧ R a b))

section
variable {H : Type} [Blake3 H] {P : Scale} {s : Db H P}

/-- What is new in a batch is placed in its order, and a reversal after what it reverses. -/
structure InOrder (s : Db H P) : Prop where
  batches : ∀ out ∈ s.commits, (newIds out).Pairwise (Follows Precedes s.tables.entries)
  reversals : ∀ r ∈ s.tables.entries, ∀ original ∈ r.entry.reverses,
    Follows Precedes s.tables.entries original r.entry.id

omit [Blake3 H] in
theorem Follows.precedes {entries : List (EntryRow H P)} {i j : EntryId} (h : Follows Ahead entries i j) :
    Follows Precedes entries i j := by
  obtain ⟨a, ha, b, hb, hi, hj, hab⟩ := h
  exact ⟨a, ha, b, hb, hi, hj, hab.precedes⟩

omit [Blake3 H] in
theorem OrderInv.inOrder (h : OrderInv s) : InOrder s :=
  ⟨fun out hout => (h.batches out hout).imp .precedes, fun r hr original ho => (h.reversals r hr original ho).precedes⟩

theorem orderInv_inductive [DecidableEq H] (ledger : LedgerId) : ((postgres ledger).restrict KeepsOrder).Inductive
    fun s : Db H P => (postgres ledger).Reachable s ∧ OrderInv s := by
  refine ⟨fun s hs => ⟨.of_init hs, ?_⟩, fun s l s' ⟨hr, ho⟩ ⟨st, ok⟩ => ⟨hr.step st, ho.step hr st ok⟩⟩
  obtain ⟨htables, htxns, hcommits⟩ := hs
  exact ⟨by simp [hcommits], by simp [htables, Tables.empty], by simp [htxns], by simp [htxns]⟩

/-- **Where every insert keeps the order, so does the log.** Whichever transactions
overlap, and in whichever passes their rows are placed. -/
theorem in_order [DecidableEq H] (ledger : LedgerId) (h : ((postgres ledger).restrict KeepsOrder).Reachable s) :
    InOrder s := ((orderInv_inductive ledger).reachable h).2.inOrder

end

/-- A batch of two sales and the reversal of the first, and a sale at the same time; a
pass places the batch while the sale is in flight. -/
def batchPlaced : List (Label Preimage cents) :=
  opened ++ [.begin .deferred [saleOfMarch.withState .balanced, saleOfApril.withState .balanced,
    Journal.reversalOfMarch.withState .balanced], .begin .deferred [nextSale.withState .balanced], .begin .pass []] ++
    (List.replicate 15 0 ++ [1, 1, 1] ++ List.replicate 11 2).map .statement

set_option maxRecDepth 20000 in
/-- Not vacuous: the batch has the first three positions. -/
theorem batchPlaced_in_order : (afterSteps batchPlaced).tables.entries.map (·.placed.map Prod.fst) = [some 0, some 1, some 2] ∧
    InOrder (afterSteps batchPlaced) := by
  have hrun : ((postgres books).restrict KeepsOrder).Run (afterSteps []) batchPlaced (afterSteps ([] ++ batchPlaced)) :=
    run_restrict_afterSteps rfl (by decide)
  exact ⟨by decide, in_order books ⟨emptyBooks, batchPlaced, ⟨rfl, rfl, rfl⟩, hrun⟩⟩

/-- The reversal of the sale of March, with a smaller identifier than the sale. -/
def smallerReversal : Entry Preimage .draft cents :=
  (saleOfMarch.withState .balanced).reverse (sale ⟨0, by decide⟩ april.start).id
    (sale ⟨0, by decide⟩ april.start).idempotencyKey april.start

/-- The sale and its reversal in one batch, and a pass. -/
def reversedAtOnce : List (Label Preimage cents) :=
  opened ++ [.begin .deferred [saleOfMarch.withState .balanced, smallerReversal.withState .balanced], .begin .pass []] ++
    (List.replicate 11 0 ++ List.replicate 10 1).map .statement

set_option maxRecDepth 20000 in
theorem batch_reversed : ¬ ∀ s : Db Preimage cents, (postgres books).Reachable s → InOrder s := by
  intro h
  have hreach : (postgres books).Reachable (afterSteps reversedAtOnce) := reachable_afterSteps (by decide)
  exact absurd (h _ hreach).batches (by decide)

end DoubleEntry.L5.Postgres
