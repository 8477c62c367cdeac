import DoubleEntry.L5Concurrency.PostgresLog

/-!
# Sequencing passes across transactions

A pass picks every committed row whose transaction id is below `xmin`. Ids are taken in
order, so what other transactions commit after the pick is not below it (`Horizon`), and
the rows below it are placed or picked until the pass commits (`Txn.PickedTo`).

**Assumptions.** For what a pass leaves behind: it begins when no other transaction has an id,
and commits. Everything else is of any run.

**Results.**
* `pickedTo_sequenceable`, `PickedTo.placed`: the pick, and one row placed.
* `pass_places`: a pass places what was committed when it began.
* `postgres_sequenced`: the log, its positions, and the pass.
-/
namespace DoubleEntry.L5.Postgres

open DoubleEntry.Core DoubleEntry.L1 DoubleEntry.L2 DoubleEntry.L3 DoubleEntry.L4

section
variable {H : Type} {P : Scale} {s s' : Db H P} {h : Nat} {t t' : Txn H P} {committed : Tables H P}

/-! ## Transaction ids -/

/-- Rows carry the id of their transaction, and ids are below the next one. -/
structure XidInv (s : Db H P) : Prop where
  committed : ∀ r ∈ s.tables.entries, r.insertXid < s.nextXid
  taken : ∀ t ∈ s.txns, ∀ x, t.xid = some x → x < s.nextXid
  rows : ∀ t ∈ s.txns, ∀ r ∈ t.rows, t.xid = some r.insertXid

/-- Every open transaction has an id from `h` on, or none yet. -/
structure Horizon (h : Nat) (s : Db H P) : Prop where
  next : h ≤ s.nextXid
  taken : ∀ t ∈ s.txns, ∀ x, t.xid = some x → h ≤ x

theorem Horizon.le_xmin (hh : Horizon h s) : h ≤ s.xmin := by
  unfold Db.xmin
  cases hmin : (s.txns.filterMap (·.xid)).min? with
  | none => exact hh.next
  | some x =>
    obtain ⟨t, ht, hx⟩ := List.mem_filterMap.1 (List.min?_mem hmin)
    exact hh.taken t ht x hx

theorem horizon_xmin (hx : XidInv s) : Horizon s.xmin s := by
  unfold Db.xmin
  cases hmin : (s.txns.filterMap (·.xid)).min? with
  | none =>
    refine ⟨le_rfl, fun t ht x hxid => ?_⟩
    have hmem : x ∈ s.txns.filterMap (·.xid) := List.mem_filterMap.2 ⟨t, ht, hxid⟩
    rw [List.min?_eq_none_iff.1 hmin] at hmem
    cases hmem
  | some y =>
    obtain ⟨t, ht, hy⟩ := List.mem_filterMap.1 (List.min?_mem hmin)
    refine ⟨(hx.taken t ht y hy).le, fun u hu x hxid => ?_⟩
    exact (List.min?_eq_some_iff.1 hmin).2 _ (List.mem_filterMap.2 ⟨u, hu, hxid⟩)

namespace Txn

theorem xid_start {job : Job} {batch : List (Entry H .balanced P)} : (start job batch).xid = none := by
  cases job <;> rfl

/-! ## The rows below the watermark -/

/-- The rows a pass has still to place. -/
def remaining (t : Txn H P) : List (EntryRow H P) :=
  match t.control with
  | .update row => row :: t.picked
  | .store => []
  | .commit => []
  | _ => t.picked

/-- Past the statement that picks the rows. -/
def HasPicked (t : Txn H P) : Prop := t.control ≠ .lock ∧ t.control ≠ .pick

/-- Every committed row below `h` is placed, or will be. -/
def PickedTo (h : Nat) (committed : Tables H P) (t : Txn H P) : Prop :=
  ∀ r ∈ committed.entries, r.insertXid < h → (place t.placements r).placed.isSome ∨ r ∈ t.remaining

theorem remaining_nextRow : t.nextRow.remaining = t.picked := by
  unfold nextRow remaining rowControl
  cases t.picked <;> rfl

theorem PickedTo.frame (hp : t.PickedTo h committed) (hplacements : t'.placements = t.placements)
    (hremaining : t'.remaining = t.remaining) : t'.PickedTo h committed := by
  unfold PickedTo
  rw [hplacements, hremaining]
  exact hp

/-- The rows below `xmin` are picked. -/
theorem pickedTo_sequenceable {xmin : Nat} (hmin : h ≤ xmin) (hplacements : t.placements = [])
    (hremaining : t.remaining = committed.sequenceable xmin) : t.PickedTo h committed := by
  intro r hr hxid
  rw [hplacements, place_nil, hremaining]
  cases hplaced : r.placed with
  | some p => exact .inl rfl
  | none => exact .inr (Tables.mem_sequenceable.2 ⟨hr, hplaced, hxid.trans_le hmin⟩)

theorem PickedTo.placed {row : EntryRow H P} {p : Nat × H} (hp : t.PickedTo h committed) (control : t.control = .update row)
    (hplacements : t'.placements = (row.entry.id, p) :: t.placements) (hremaining : t'.remaining = t.picked) :
    t'.PickedTo h committed := by
  intro r hr hxid
  rw [hplacements, place_cons, hremaining]
  have hbefore := hp r hr hxid
  rw [remaining, control, List.mem_cons] at hbefore
  rcases hbefore with hplaced | rfl | hleft
  · left
    split
    · rfl
    · exact hplaced
  · left
    rw [place_toLogged, if_pos rfl]
    rfl
  · exact .inr hleft

/-- What is committed from `h` on is no matter to it. -/
theorem PickedTo.grow {committed' : Tables H P} {rows : List (EntryRow H P)} (hp : t.PickedTo h committed)
    (he : committed'.entries = committed.entries ++ rows) (hrows : ∀ r ∈ rows, h ≤ r.insertXid) :
    t.PickedTo h committed' := by
  intro r hr hxid
  rw [he] at hr
  rcases List.mem_append.1 hr with hr | hr
  · exact hp r hr hxid
  · exact absurd hxid (Nat.not_lt.2 (hrows r hr))

end Txn

end

section
variable {H : Type} [Blake3 H] {P : Scale} {s s' : Db H P} {i h : Nat} {t t' : Txn H P} {committed : Tables H P}
  {log : List (Logged H P)}

/-! ## Statements -/

namespace Txn

/-- A statement gives the id back with everything else, or keeps it. -/
theorem Next.xid {others : List (Txn H P)} {xmin : Nat} (next : t.Next committed others xmin t') :
    (t'.xid = none ∧ t'.rows = []) ∨ t'.xid = t.xid := by
  cases next with
  | finished => exact .inl ⟨rfl, rfl⟩
  | inserted => exact .inr (by simp)
  | unlimited => exact .inr (by simp)
  | permitted => exact .inr (by simp)
  | _ => exact .inr rfl

theorem Next.ended {others : List (Txn H P)} {xmin : Nat} (next : t.Next committed others xmin t')
    (hended : t.control = .ended) : t'.control = .ended := by
  cases next with
  | finished => rfl
  | _ control => rw [hended] at control; cases control

/-- What a statement of a pass does to the rows it picked and placed. -/
inductive PassMove (committed : Tables H P) (xmin : Nat) (t t' : Txn H P) : Prop
  | finished (after : t'.control = .ended)
  | locked (after : t'.control = .pick)
  | picked (placements : t'.placements = []) (remaining : t'.remaining = committed.sequenceable xmin)
  | same (before : t.HasPicked) (placements : t'.placements = t.placements) (remaining : t'.remaining = t.remaining)
  | placed {row : EntryRow H P} (control : t.control = .update row)
      (placements : t'.placements = (row.entry.id, t.tail.place row.contentHash) :: t.placements)
      (remaining : t'.remaining = t.picked)

theorem Next.passMove {others : List (Txn H P)} {xmin : Nat} (next : t.Next committed others xmin t')
    (hlog : t.InLog committed log) (hjob : t.job = .pass) :
    t'.control = .ended ∨ (t'.job = .pass ∧ t.PassMove committed xmin t') := by
  -- the statements of an append are not those of a pass
  have defers : ∀ {q : Prop}, t.Defers → q := fun hd => absurd (hjob.symm.trans hd.job) (by decide)
  have appends : ∀ {q : Prop} {more pending : List (Logged H P)}, t.Appends committed log more pending → q :=
    fun ha => absurd (hjob.symm.trans ha.job) (by decide)
  have entry : ∀ {q : Prop}, (t.Defers ∨ ∃ more, t.Appends committed log more []) → q := fun h =>
    h.elim defers fun ⟨_, ha⟩ => appends ha
  have claim : ∀ {q : Prop} {e : Entry H .balanced P},
      (t.Defers ∨ ∃ more x, x.contentHash = e.contentHash ∧ t.Appends committed log more [x]) → q := fun h =>
    h.elim defers fun ⟨_, _, _, ha⟩ => appends ha
  have at_control : ∀ {control : Control H P}, t.control = control → t.InLogAt committed log control :=
    fun hc => by rwa [← hc]
  have has_picked : ∀ {control : Control H P}, t.control = control → control ≠ .lock → control ≠ .pick → t.HasPicked :=
    fun hc hlock hpick => ⟨hc ▸ hlock, hc ▸ hpick⟩
  have left : ∀ {control : Control H P}, t.control = control → t.remaining = { t with control := control }.remaining :=
    fun hc => by rw [remaining, hc, remaining]
  cases next with
  | finished => exact .inl rfl
  | lock => exact .inr ⟨hjob, .locked (if_pos hjob)⟩
  | pick control =>
    obtain ⟨hnone, -, -⟩ := at_control control
    refine .inr ⟨hjob, .picked hnone.placements ?_⟩
    unfold remaining
    rw [hnone.view_eq]
    by_cases hempty : (committed.sequenceable xmin).isEmpty
    · simp only [if_pos hempty]
      exact (List.isEmpty_iff.1 hempty).symm
    · simp only [if_neg hempty]
  | nextIndex control => exact .inr ⟨hjob, .same (has_picked control (by simp) (by simp)) rfl (left control).symm⟩
  | subtrees control => exact .inr ⟨hjob, .same (has_picked control (by simp) (by simp)) rfl (left control).symm⟩
  | countRows control =>
    exact .inr ⟨hjob, .same (has_picked control (by simp) (by simp)) rfl (remaining_nextRow.trans (left control).symm)⟩
  | countEntries control job => exact absurd hjob job
  | update control => exact .inr ⟨hjob, .placed control rfl remaining_nextRow⟩
  | unique control => exact entry (at_control control)
  | reversal control => exact entry (at_control control)
  | taken control => exact entry (at_control control)
  | inserted control => exact entry (at_control control)
  | replayed control => exact entry (at_control control)
  | unlimited control => exact claim (at_control control)
  | claimed control => exact claim (at_control control)
  | permitted control => exact claim (at_control control)
  | store control => exact .inr ⟨hjob, .same (has_picked control (by simp) (by simp)) rfl (left control).symm⟩

theorem PassMove.pickedTo {xmin : Nat} (hm : t.PassMove committed xmin t') (hmin : h ≤ xmin)
    (hp : t.HasPicked → t.PickedTo h committed) (hended : t'.control ≠ .ended) (hpicked : t'.HasPicked) :
    t'.PickedTo h committed := by
  cases hm with
  | finished after => exact absurd after hended
  | locked after => exact absurd after hpicked.2
  | picked placements remaining => exact pickedTo_sequenceable hmin placements remaining
  | same before placements remaining => exact (hp before).frame placements remaining
  | placed control placements remaining =>
    exact (hp ⟨by simp [control], by simp [control]⟩).placed control placements remaining

/-- A pass that has picked its rows holds the lock. -/
theorem InLog.pass_locked (hlog : t.InLog committed log) (hjob : t.job = .pass) (hlock : t.control ≠ .lock)
    (hended : t.control ≠ .ended) : t.appendLock = true := by
  have defers : ∀ {q : Prop}, t.Defers → q := fun hd => absurd (hjob.symm.trans hd.job) (by decide)
  unfold InLog at hlog
  cases hc : t.control <;> rw [hc] at hlog
  case lock => exact absurd hc hlock
  case pick => exact hlog.2.1
  case nextIndex => exact hlog.appendLock
  case subtrees => exact hlog.1.appendLock
  case count => exact hlog.1.appendLock
  case update => exact hlog.choose_spec.appendLock
  case clash => exact hlog.elim defers fun ⟨_, ha⟩ => ha.appendLock
  case reversal => exact hlog.elim defers fun ⟨_, ha⟩ => ha.appendLock
  case insert => exact hlog.elim defers fun ⟨_, ha⟩ => ha.appendLock
  case existing => exact hlog.elim defers fun ⟨_, ha⟩ => ha.appendLock
  case claim => exact hlog.elim defers fun ⟨_, _, _, ha⟩ => ha.appendLock
  case sum => exact hlog.elim defers fun ⟨_, _, _, ha⟩ => ha.appendLock
  case store => exact hlog.choose_spec.elim (·.appendLock) (·.appendLock)
  case commit =>
    rcases hlog with hd | ⟨-, -, hother⟩ | hl
    · exact defers hd
    · exact absurd (hjob.symm.trans hother) (by decide)
    · exact hl.appendLock
  case ended => exact absurd hc hended

end Txn

variable [DecidableEq H]

theorem xidInv_stable (ledger : LedgerId) : (postgres ledger).Stable (XidInv : Db H P → Prop) := by
  intro s l s' hs st
  cases Db.step_cases st with
  | begun job batch =>
    refine ⟨hs.committed, fun t ht => ?_, fun t ht => ?_⟩ <;> rcases List.mem_append.1 ht with ht | ht
    · exact hs.taken t ht
    · rw [List.mem_singleton.1 ht, Txn.xid_start]
      simp
    · exact hs.rows t ht
    · rw [List.mem_singleton.1 ht, Txn.rows_start]
      simp
  | @xidTaken i t slot takes =>
    obtain ⟨-, htaken⟩ := (forall_slot slot).1 hs.taken
    obtain ⟨hrows, hothers⟩ := (forall_slot slot).1 hs.rows
    have hnone : t.xid = none := by
      rw [Txn.takesXid, Bool.and_eq_true] at takes
      simpa using takes.1
    refine ⟨fun r hr => (hs.committed r hr).trans (Nat.lt_succ_self _), ?_, ?_⟩
    · refine (forall_set_slot slot).2 ⟨fun x hx => ?_, fun u hu x hx => (htaken u hu x hx).trans (Nat.lt_succ_self _)⟩
      cases hx
      exact Nat.lt_succ_self _
    · refine (forall_set_slot slot).2 ⟨fun r hr => ?_, hothers⟩
      rw [hnone] at hrows
      cases hrows r hr
  | @ran i t t' slot takes next =>
    obtain ⟨ht, htaken⟩ := (forall_slot slot).1 hs.taken
    obtain ⟨hrows, hothers⟩ := (forall_slot slot).1 hs.rows
    refine ⟨hs.committed, (forall_set_slot slot).2 ⟨?_, htaken⟩, (forall_set_slot slot).2 ⟨?_, hothers⟩⟩
    · rcases next.xid with ⟨hnone, -⟩ | hsame
      · simp [hnone]
      · rw [hsame]
        exact ht
    · rcases next.xid with ⟨-, hnil⟩ | hsame
      · simp [hnil]
      · rw [hsame]
        rcases next.rows with hnil | hkept | ⟨e, control, hkept, -⟩
        · simp [hnil]
        · rw [hkept]
          exact hrows
        · rw [hkept]
          intro r hr
          rcases List.mem_append.1 hr with hr | hr
          · exact hrows r hr
          · have hsome : t.xid.isSome := by simpa [Txn.takesXid, control] using takes
            obtain ⟨x, hx⟩ := Option.isSome_iff_exists.1 hsome
            rw [List.mem_singleton.1 hr, Txn.rowOf, hx]
            rfl
  | @committed i t slot control =>
    obtain ⟨ht, htaken⟩ := (forall_slot slot).1 hs.taken
    obtain ⟨hrows, hothers⟩ := (forall_slot slot).1 hs.rows
    refine ⟨fun r hr => ?_, (forall_set_slot slot).2 ⟨fun _ h => (Option.some_ne_none _ h.symm).elim, htaken⟩,
      (forall_set_slot slot).2 ⟨fun _ hr => (List.not_mem_nil hr).elim, hothers⟩⟩
    obtain ⟨x, hx, -, hxid⟩ := Txn.of_mem_view hr
    rw [← hxid]
    rcases List.mem_append.1 hx with hx | hx
    · exact hs.committed x hx
    · exact ht _ (hrows x hx)
  | failed slot =>
    exact ⟨hs.committed, (forall_set_slot slot).2 ⟨fun _ h => (Option.some_ne_none _ h.symm).elim, ((forall_slot slot).1 hs.taken).2⟩,
      (forall_set_slot slot).2 ⟨fun _ hr => (List.not_mem_nil hr).elim, ((forall_slot slot).1 hs.rows).2⟩⟩
  | registered ok =>
    obtain ⟨accounts, rfl⟩ := Tables.registerAccount_eq_ok ok
    exact ⟨hs.committed, hs.taken, hs.rows⟩

theorem xidInv_inductive (ledger : LedgerId) : (postgres ledger).Inductive (XidInv : Db H P → Prop) := by
  refine ⟨fun s hs => ?_, xidInv_stable ledger⟩
  exact ⟨by simp [hs.1, Tables.empty], by simp [hs.2.1], by simp [hs.2.1]⟩

theorem horizon_stable (ledger : LedgerId) : (postgres ledger).Stable (Horizon h : Db H P → Prop) := by
  intro s l s' hs st
  cases Db.step_cases st with
  | begun job batch =>
    refine ⟨hs.next, fun t ht => ?_⟩
    rcases List.mem_append.1 ht with ht | ht
    · exact hs.taken t ht
    · rw [List.mem_singleton.1 ht, Txn.xid_start]
      simp
  | xidTaken slot =>
    refine ⟨hs.next.trans (Nat.le_succ _), (forall_set_slot slot).2 ⟨fun x hx => ?_, ((forall_slot slot).1 hs.taken).2⟩⟩
    cases hx
    exact hs.next
  | ran slot _ next =>
    obtain ⟨ht, hothers⟩ := (forall_slot slot).1 hs.taken
    refine ⟨hs.next, (forall_set_slot slot).2 ⟨?_, hothers⟩⟩
    rcases next.xid with ⟨hnone, -⟩ | hsame
    · simp [hnone]
    · rw [hsame]
      exact ht
  | committed slot =>
    exact ⟨hs.next, (forall_set_slot slot).2 ⟨fun _ h => (Option.some_ne_none _ h.symm).elim, ((forall_slot slot).1 hs.taken).2⟩⟩
  | failed slot =>
    exact ⟨hs.next, (forall_set_slot slot).2 ⟨fun _ h => (Option.some_ne_none _ h.symm).elim, ((forall_slot slot).1 hs.taken).2⟩⟩
  | registered ok =>
    obtain ⟨accounts, rfl⟩ := Tables.registerAccount_eq_ok ok
    exact ⟨hs.next, hs.taken⟩

/-! ## A pass among other transactions -/

/-- The transaction in a slot is a pass that picked up to `h`, or it is over. -/
def PassAt (h : Nat) (i : Nat) (s : Db H P) : Prop :=
  ∀ t, s.txns[i]? = some t → t.control = .ended ∨ (t.job = .pass ∧ (t.HasPicked → t.PickedTo h s.tables))

theorem PassAt.step {ledger : LedgerId} {l : Label H P} (hs : LogState s log) (hx : XidInv s) (hh : Horizon h s)
    (st : (postgres ledger).step s l s') (hp : PassAt h i s) (hi : i < s.txns.length) : PassAt h i s' := by
  intro t ht
  -- the slot before, if another one moved
  have other : ∀ {j : Nat} {u : Txn H P}, j ≠ i → (s.txns.set j u)[i]? = some t → s.txns[i]? = some t := fun hne h => by
    rwa [List.getElem?_set_ne hne] at h
  cases Db.step_cases st with
  | begun job batch => exact hp t (by rwa [List.getElem?_append_left hi] at ht)
  | @xidTaken j u slot =>
    by_cases hji : j = i
    · subst hji
      rw [Db.setTxn, List.getElem?_set_self hi] at ht
      cases ht
      exact (hp u slot).imp_right fun ⟨hjob, hto⟩ => ⟨hjob, fun hpicked => (hto hpicked).frame rfl rfl⟩
    · exact hp t (other hji ht)
  | @ran j u _ slot _ next =>
    by_cases hji : j = i
    · subst hji
      rw [Db.setTxn, List.getElem?_set_self hi] at ht
      cases ht
      rcases hp u slot with hended | ⟨hjob, hto⟩
      · exact .inl (next.ended hended)
      · by_cases hended : t.control = .ended
        · exact .inl hended
        · obtain ⟨hjob', hm⟩ := (next.passMove ((forall_slot slot).1 hs.txns).1 hjob).resolve_left hended
          exact .inr ⟨hjob', hm.pickedTo hh.le_xmin hto hended⟩
    · exact hp t (other hji ht)
  | @committed j u slot control =>
    by_cases hji : j = i
    · subst hji
      rw [Db.commit, List.getElem?_set_self hi] at ht
      cases ht
      exact .inl rfl
    · have hslot := other hji ht
      rcases hp t hslot with hended | ⟨hjob, hto⟩
      · exact .inl hended
      · by_cases hended : t.control = .ended
        · exact .inl hended
        · refine .inr ⟨hjob, fun hpicked => ?_⟩
          -- the pass has the lock, so the other one commits rows from `h` on
          have hheld := (hs.txns t (List.mem_of_getElem? hslot)).pass_locked hjob hpicked.1 hended
          have hne : t ∈ s.txns.eraseIdx j := List.mem_eraseIdx_iff_getElem?.2 ⟨i, Ne.symm hji, hslot⟩
          have hfree : u.appendLock ≠ true := fun h => ((pairwise_slot both_symm slot).1 hs.lock).1 t hne ⟨h, hheld⟩
          obtain ⟨-, hplacements, -⟩ := ((forall_slot slot).1 hs.txns).1.unlocked_commit control hfree
          refine (hto hpicked).grow (Txn.view_entries hplacements _) fun r hr => ?_
          exact hh.taken u (List.mem_of_getElem? slot) _ (hx.rows u (List.mem_of_getElem? slot) r hr)
  | @failed j u slot =>
    by_cases hji : j = i
    · subst hji
      rw [Db.setTxn, List.getElem?_set_self hi] at ht
      cases ht
      exact .inl rfl
    · exact hp t (other hji ht)
  | registered ok =>
    obtain ⟨accounts, rfl⟩ := Tables.registerAccount_eq_ok ok
    exact hp t ht

/-- What is committed stays, but for its position. -/
def Kept (s s' : Db H P) : Prop :=
  ∀ r ∈ s.tables.entries, ∃ r' ∈ s'.tables.entries, r'.toLogged = r.toLogged ∧ r'.insertXid = r.insertXid

omit [Blake3 H] [DecidableEq H] in
theorem Kept.refl (s : Db H P) : Kept s s := fun r hr => ⟨r, hr, rfl, rfl⟩

omit [Blake3 H] [DecidableEq H] in
theorem Kept.trans {u v : Db H P} (h : Kept s u) (h' : Kept u v) : Kept s v := fun r hr => by
  obtain ⟨r', hr', hlogged, hxid⟩ := h r hr
  obtain ⟨r'', hr'', hlogged', hxid'⟩ := h' r' hr'
  exact ⟨r'', hr'', hlogged'.trans hlogged, hxid'.trans hxid⟩

theorem kept_of_step {ledger : LedgerId} {l : Label H P} (st : (postgres ledger).step s l s') : Kept s s' := by
  cases Db.step_cases st with
  | committed slot => exact fun r hr => Txn.mem_view (List.mem_append_left _ hr)
  | registered ok =>
    obtain ⟨accounts, rfl⟩ := Tables.registerAccount_eq_ok ok
    exact Kept.refl s
  | _ => exact Kept.refl s

theorem kept_of_run {ledger : LedgerId} {ls : List (Label H P)} (r : (postgres ledger).Run s ls s') : Kept s s' :=
  r.rel (I := fun _ => True) (fun _ _ _ _ _ => trivial) Kept.refl (fun _ _ _ => Kept.trans) (fun _ _ _ _ => kept_of_step) trivial

/-- A position stays with its entry. -/
def KeepsPositions (s s' : Db H P) : Prop :=
  ∀ r ∈ s.tables.entries, ∀ p, r.placed = some p → ∃ r' ∈ s'.tables.entries, r'.toLogged = r.toLogged ∧ r'.placed = some p

omit [DecidableEq H] in
theorem keepsPositions_of_logs {log' : List (Logged H P)} (hs : s.tables.LogInv log) (hs' : s'.tables.LogInv log')
    (hlater : log <+: log') : KeepsPositions s s' := by
  intro r hr p hp
  have hmem : (p, r.toLogged) ∈ placedRows s.tables.entries := List.mem_filterMap.2 ⟨r, hr, by simp [hp]⟩
  obtain ⟨hleaf, hroot⟩ := mem_numbered.1 (hs.logOf.mem_iff.1 hmem)
  obtain ⟨hlt, -⟩ := List.getElem?_eq_some_iff.1 hleaf
  obtain ⟨more, rfl⟩ := hlater
  have hmem' : (p, r.toLogged) ∈ numbered (log ++ more) := by
    refine mem_numbered.2 ⟨?_, ?_⟩
    · rwa [List.getElem?_append_left hlt]
    · rwa [List.take_append_of_le_length hlt]
  obtain ⟨r', hr', heq⟩ := List.mem_filterMap.1 (hs'.logOf.mem_iff.2 hmem')
  obtain ⟨p', hp', heq⟩ := Option.map_eq_some_iff.1 heq
  obtain ⟨rfl, hlogged⟩ := Prod.mk.inj heq
  exact ⟨r', hr', hlogged, hp'⟩

/-- A run keeps what the pass in a slot has picked. -/
theorem PassAt.run {ledger : LedgerId} {ls : List (Label H P)} (r : (postgres ledger).Run s ls s') :
    ∀ {log}, LogState s log → XidInv s → Horizon h s → PassAt h i s → i < s.txns.length →
      (∃ log', LogState s' log') ∧ PassAt h i s' ∧ i < s'.txns.length := by
  induction r with
  | nil s => exact fun hs _ _ hp hi => ⟨⟨_, hs⟩, hp, hi⟩
  | @cons s u v l ls st _ ih =>
    intro log hs hx hh hp hi
    obtain ⟨more, hnext⟩ := hs.step st
    have hi' : i < u.txns.length := by
      cases Db.step_cases st with
      | begun job batch => simp; omega
      | registered ok => exact hi
      | _ => simpa [Db.setTxn, Db.commit] using hi
    exact ih hnext (xidInv_stable ledger s l u hx st) (horizon_stable ledger s l u hh st) (hp.step hs hx hh st hi) hi'

/-- A pass that begins when no other transaction has an id places every entry committed then. -/
theorem pass_places {ledger : LedgerId} {s₁ u v : Db H P} {ls : List (Label H P)} {batch : List (Entry H .balanced P)}
    (hs : (postgres ledger).Reachable s) (hquiet : ∀ t ∈ s.txns, t.xid = none)
    (begin : (postgres ledger).step s (.begin .pass batch) s₁) (r : (postgres ledger).Run s₁ ls u)
    (st : (postgres ledger).step u (.statement s.txns.length) v) (commits : u.commits.length < v.commits.length) :
    ∀ r ∈ s.tables.entries, ∃ r' ∈ v.tables.entries, r'.toLogged = r.toLogged ∧ r'.placed.isSome := by
  obtain ⟨log, hlog⟩ := logState_of_reachable hs
  have hx := (xidInv_inductive ledger).reachable hs
  have hh : Horizon s.nextXid s := ⟨le_rfl, fun t ht x h => (Option.some_ne_none x (h.symm.trans (hquiet t ht))).elim⟩
  obtain ⟨more, hlog₁⟩ := hlog.step begin
  have hx₁ := xidInv_stable ledger s _ s₁ hx begin
  have hh₁ := horizon_stable ledger s _ s₁ hh begin
  have hkept := (kept_of_step begin).trans (kept_of_run r)
  have hslot : s₁.txns = s.txns ++ [.start .pass batch] := by cases begin; rfl
  have hpass : PassAt s.nextXid s.txns.length s₁ := by
    intro t ht
    rw [hslot, List.getElem?_concat_length] at ht
    cases ht
    exact .inr ⟨rfl, fun hpicked => absurd rfl hpicked.1⟩
  obtain ⟨-, hpass, -⟩ := hpass.run r hlog₁ hx₁ hh₁ (by simp [hslot])
  cases Db.step_cases st with
  | xidTaken => exact absurd commits (lt_irrefl _)
  | ran => exact absurd commits (lt_irrefl _)
  | @committed _ t slot control =>
    rcases hpass t slot with hended | ⟨-, hto⟩
    · rw [control] at hended
      cases hended
    · intro r hr
      obtain ⟨x, hmem, hlogged, hxid⟩ := hkept r hr
      have hbelow : x.insertXid < s.nextXid := hxid ▸ hx.committed r hr
      rcases hto ⟨by simp [control], by simp [control]⟩ x hmem hbelow with hplaced | hleft
      · exact ⟨_, List.mem_map_of_mem (List.mem_append_left _ hmem), place_toLogged.trans hlogged, hplaced⟩
      · rw [Txn.remaining, control] at hleft
        cases hleft

/-- **Sequencing on Postgres.** For any writers and passes, the sequenced rows are a log
with dense positions, the roots of its prefixes and its accumulator; a position never
changes; and a pass that begins once all transactions before it have ended leaves no
entry of theirs without a position. -/
theorem postgres_sequenced (ledger : LedgerId) :
    (∀ {s : Db H P}, (postgres ledger).Reachable s → ∃ leaves, Represents s.tables leaves) ∧
    (∀ {s u : Db H P} {ls : List (Label H P)}, (postgres ledger).Reachable s → (postgres ledger).Run s ls u →
      KeepsPositions s u) ∧
    ∀ {s s₁ u v : Db H P} {ls : List (Label H P)} {batch : List (Entry H .balanced P)}, (postgres ledger).Reachable s →
      (∀ t ∈ s.txns, t.xid = none) → (postgres ledger).step s (.begin .pass batch) s₁ → (postgres ledger).Run s₁ ls u →
      (postgres ledger).step u (.statement s.txns.length) v → u.commits.length < v.commits.length →
      ∀ r ∈ s.tables.entries, ∃ r' ∈ v.tables.entries, r'.toLogged = r.toLogged ∧ r'.placed.isSome := by
  refine ⟨fun hs => ?_, fun hs r => ?_, pass_places⟩
  · obtain ⟨log, hlog⟩ := logState_of_reachable hs
    exact ⟨hashes log, hlog.logInv.represents⟩
  · obtain ⟨log, hlog⟩ := logState_of_reachable hs
    obtain ⟨log', hlater, hlog'⟩ := logState_of_run r hlog
    exact keepsPositions_of_logs hlog.logInv hlog'.logInv hlater

end

/-! ## A pass while a sale is recorded -/

/-- Two deferred sales overlap; the second commits first. -/
def twoSales : List (Label Preimage cents) :=
  opened ++ [.begin .deferred [saleOfMarch.withState .balanced], .begin .deferred [saleOfApril.withState .balanced]] ++
    [0, 1, 1, 0, 1, 0, 1, 1, 1, 0, 0, 0].map .statement

/-- A pass up to its commit; another sale takes its id before the pass picks its rows. -/
def whileSelling : List (Label Preimage cents) :=
  .begin .deferred [nextSale.withState .balanced] :: [2, 3, 3, 3, 2, 2, 2, 2, 2, 2, 2, 2].map .statement

def passBegun : List (Label Preimage cents) := twoSales ++ [.begin .pass []]

def passDone : List (Label Preimage cents) := passBegun ++ whileSelling ++ [.statement 2]

/-- The third sale is recorded after the pass. -/
def thirdSold : List (Label Preimage cents) := [3, 3, 3].map .statement

set_option maxRecDepth 20000 in
/-- Not vacuous: both sales are placed while a third is in flight. -/
theorem passDone_sequenced : (∃ leaves, Represents (afterSteps passDone).tables leaves) ∧
    KeepsPositions (afterSteps passDone) (afterSteps (passDone ++ thirdSold)) ∧
    ∀ r ∈ (afterSteps twoSales).tables.entries,
      ∃ r' ∈ (afterSteps passDone).tables.entries, r'.toLogged = r.toLogged ∧ r'.placed.isSome := by
  have hreach : (postgres books).Reachable (afterSteps passDone) := reachable_afterSteps (by decide)
  have hrun : (postgres books).Run (afterSteps passBegun) whileSelling (afterSteps (passBegun ++ whileSelling)) :=
    run_afterSteps (by decide) (by decide)
  have hlater : (postgres books).Run (afterSteps passDone) thirdSold (afterSteps (passDone ++ thirdSold)) :=
    run_afterSteps (by decide) (by decide)
  refine ⟨(postgres_sequenced books).1 hreach, (postgres_sequenced books).2.1 hreach hlater, ?_⟩
  exact (postgres_sequenced books).2.2 (reachable_afterSteps (by decide)) (by decide)
    (step_afterSteps (by decide) rfl) hrun (step_afterSteps (by decide) (by decide)) (by decide)

end DoubleEntry.L5.Postgres
