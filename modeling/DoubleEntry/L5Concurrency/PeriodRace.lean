import DoubleEntry.L4Store.PeriodCalls

/-!
# Two clients, one lifecycle

`transition_period` on a SQL store is a read, a check and an update that names
the row by its identifier only; `seal_period` is a read and a check, the reads
of the other tables, and a transaction that inserts the seal row and updates the
period. Any number of clients run these calls, one statement a step
(`Lbl`), over any stored calendar. A transaction takes effect at its commit; a
statement or a transaction that fails (`fail`) writes nothing.

* `readTransition` and `update` are `src/storage/sqlite.rs:1259-1272` and
  `src/storage/postgres.rs:1432-1448`.
* `readSeal` and `commit` are `src/storage/sqlite.rs:1305-1384` and
  `src/storage/postgres.rs:1520-1603`; the reads in between do not look at the calendar.

The update does not look at the state it overwrites. A write is legal exactly
when the row is still in the state the call's check read, or already in the
state being written (`Fresh`, `legal_iff_fresh`); in a run whose writes are all
fresh every state change follows the lifecycle and sealed rows stay sealed
(`lifecycle_of_fresh`). Otherwise an abandoned close reopens a period another
client has just sealed (`reopened_after_seal`).

**Results.**
* `permitted_from`: a state is reached legally from one state only, or from itself.
* `legal_iff_fresh`: a step from any reachable state.
* `lifecycle_of_fresh`: runs from any of them, on either backend.
* `reopened_after_seal`: the run that breaks it.
-/
namespace DoubleEntry.L5.PeriodRace

open DoubleEntry.Core DoubleEntry.L1 DoubleEntry.L3 DoubleEntry.L4

/-- A client between its statements. `read` is the state its check read.
mirrors src/storage/sqlite.rs:1259-1272,1305-1384,
src/storage/postgres.rs:1432-1448,1520-1603 -/
inductive Client where
  | idle
  | updating (id : PeriodId) (read target : PeriodState)
  | sealing (id : PeriodId) (read : PeriodState)
  deriving DecidableEq

structure St where
  table : PeriodTable
  clients : Nat → Client

inductive Lbl where
  /-- `transition_period`: reads the calendar and checks. -/
  | readTransition (i : Nat) (id : PeriodId) (target : PeriodState)
  /-- `seal_period`: reads the calendar and checks. -/
  | readSeal (i : Nat) (id : PeriodId)
  /-- `UPDATE periods SET state = .. WHERE period_id = ..`. -/
  | update (i : Nat)
  /-- The transaction of `seal_period` commits. -/
  | commit (i : Nat)
  | fail (i : Nat)

/-- The state of `id` that a successful check of `transition_period` read. -/
def checkTransition (D : Dialect) (t : PeriodTable) (id : PeriodId) (target : PeriodState) :
    Option PeriodState :=
  match calendar D t with
  | .error _ => none
  | .ok c => if (c.transition id target).isOk then (c.get id).map (·.state) else none

/-- The state of `id` that a successful check of `seal_period` read. -/
def checkSeal (D : Dialect) (t : PeriodTable) (id : PeriodId) : Option PeriodState :=
  match calendar D t with
  | .error _ => none
  | .ok c => (c.checkSealable id).toOption.map (·.state)

def St.setClient (s : St) (i : Nat) (c : Client) : St := { s with clients := Function.update s.clients i c }

def St.write (s : St) (i : Nat) (id : PeriodId) (target : PeriodState) : St where
  table := s.table.updateState id target
  clients := Function.update s.clients i .idle

/-- A refused check ends the call: the client stays idle. -/
def step (D : Dialect) (s : St) : Lbl → Option St
  | .readTransition i id target =>
    if s.clients i = .idle then
      some ((checkTransition D s.table id target).elim s fun read => s.setClient i (.updating id read target))
    else none
  | .readSeal i id =>
    if s.clients i = .idle then
      some ((checkSeal D s.table id).elim s fun read => s.setClient i (.sealing id read))
    else none
  | .update i =>
    match s.clients i with
    | .updating id _ target => some (s.write i id target)
    | _ => none
  | .commit i =>
    match s.clients i with
    | .sealing id _ => some (s.write i id .sealed)
    | _ => none
  | .fail i => some (s.setClient i .idle)

/-- Any stored calendar, every client idle. -/
def race (D : Dialect) : LTS St Lbl := .ofFn (fun s => ∀ i, s.clients i = .idle) (step D)

/-- The write a client has checked and not made: the row, the state it read and
the state it writes. -/
def Client.pending : Client → Option (PeriodId × PeriodState × PeriodState)
  | .idle => none
  | .updating id read target => some (id, read, target)
  | .sealing id read => some (id, read, .sealed)

/-- A write finds the row in the state its check read, or in the state it writes. -/
def Fresh (s : St) : Lbl → Prop
  | .update i | .commit i => ∀ id read target, (s.clients i).pending = some (id, read, target) →
      ∀ r, s.table.rows.get? id = some r → r.state = read ∨ r.state = target
  | _ => True

/-- Rows stay, and a changed state follows the lifecycle. -/
def Legal (t u : PeriodTable) : Prop :=
  ∀ id r, t.rows.get? id = some r → ∃ r', u.rows.get? id = some r' ∧
    (r'.state = r.state ∨ PeriodCalendar.permitted r.state r'.state = true)

/-! ## Invariant -/

/-- What is pending was permitted when it was checked. -/
def Inv (s : St) : Prop :=
  ∀ i id read target, (s.clients i).pending = some (id, read, target) →
    PeriodCalendar.permitted read target = true

theorem checkTransition_permitted {D : Dialect} {t : PeriodTable} {id : PeriodId} {target read : PeriodState}
    (h : checkTransition D t id target = some read) : PeriodCalendar.permitted read target = true := by
  unfold checkTransition at h
  split at h
  · cases h
  · rename_i c _
    split at h
    · rename_i hok
      cases ht : c.transition id target with
      | error e => rw [ht] at hok; cases hok
      | ok c' =>
        obtain ⟨q, hq, hp, -⟩ := PeriodCalendar.transition_eq_ok.1 ht
        rw [hq] at h
        cases h
        exact hp
    · cases h

theorem checkSeal_permitted {D : Dialect} {t : PeriodTable} {id : PeriodId} {read : PeriodState}
    (h : checkSeal D t id = some read) : PeriodCalendar.permitted read .sealed = true := by
  unfold checkSeal at h
  split at h
  · cases h
  · rename_i c _
    cases hs : c.checkSealable id with
    | error e => rw [hs] at h; cases h
    | ok p =>
      rw [hs] at h
      cases h
      show PeriodCalendar.permitted p.state .sealed = true
      rw [(PeriodCalendar.checkSealable_eq_ok.1 hs).2.1]
      rfl

/-- What a step does: a client checks a write or ends its call, or it writes. -/
inductive Effect (s : St) (l : Lbl) : St → Prop
  | refused (reads : Fresh s l) : Effect s l s
  | checked {i : Nat} {c : Client} (reads : Fresh s l)
      (permitted : ∀ id read target, c.pending = some (id, read, target) → PeriodCalendar.permitted read target = true) :
      Effect s l (s.setClient i c)
  | written {i : Nat} {id : PeriodId} {read target : PeriodState} (label : l = .update i ∨ l = .commit i)
      (pending : (s.clients i).pending = some (id, read, target)) : Effect s l (s.write i id target)

theorem effect_of_step {D : Dialect} {s u : St} {l : Lbl} (st : step D s l = some u) : Effect s l u := by
  cases l with
  | readTransition i id target =>
    simp only [step] at st
    split at st
    · cases hc : checkTransition D s.table id target with
      | none => rw [hc] at st; cases st; exact .refused trivial
      | some read =>
        rw [hc] at st
        cases st
        refine .checked trivial ?_
        rintro _ _ _ ⟨⟩
        exact checkTransition_permitted hc
    · cases st
  | readSeal i id =>
    simp only [step] at st
    split at st
    · cases hc : checkSeal D s.table id with
      | none => rw [hc] at st; cases st; exact .refused trivial
      | some read =>
        rw [hc] at st
        cases st
        refine .checked trivial ?_
        rintro _ _ _ ⟨⟩
        exact checkSeal_permitted hc
    · cases st
  | update i =>
    simp only [step] at st
    split at st
    · rename_i id read target hc
      cases st
      exact .written (.inl rfl) (by rw [hc]; rfl)
    · cases st
  | commit i =>
    simp only [step] at st
    split at st
    · rename_i id read hc
      cases st
      exact .written (.inr rfl) (by rw [hc]; rfl)
    · cases st
  | fail i =>
    cases st
    exact .checked trivial fun _ _ _ h => by cases h

theorem inv_setClient {s : St} {i : Nat} {c : Client} (h : Inv s)
    (hc : ∀ id read target, c.pending = some (id, read, target) →
      PeriodCalendar.permitted read target = true) : Inv (s.setClient i c) := by
  intro j id read target hj
  simp only [St.setClient, Function.update_apply] at hj
  split at hj
  · exact hc id read target hj
  · exact h j id read target hj

theorem inv_write {s : St} {i : Nat} {id : PeriodId} {target : PeriodState} (h : Inv s) :
    Inv (s.write i id target) := by
  intro j id' read target' hj
  simp only [St.write, Function.update_apply] at hj
  split at hj
  · cases hj
  · exact h j id' read target' hj

theorem inv_reachable {D : Dialect} {s : St} (h : (race D).Reachable s) : Inv s := by
  refine LTS.Inductive.reachable (I := Inv) ⟨fun s h i id read target hi => ?_, ?_⟩ h
  · rw [h i] at hi
    cases hi
  · intro s l u hI st
    cases effect_of_step st with
    | refused => exact hI
    | checked reads permitted => exact inv_setClient hI permitted
    | written => exact inv_write hI

/-! ## One write -/

theorem legal_refl (t : PeriodTable) : Legal t t := fun _ r hr => ⟨r, hr, .inl rfl⟩

/-- The lifecycle is a path: from where it may be reached, a state is reached
legally only from the state it was permitted from, or from itself. -/
theorem permitted_from {read target now : PeriodState}
    (h : PeriodCalendar.permitted read target = true) :
    (target = now ∨ PeriodCalendar.permitted now target = true) ↔ (now = read ∨ now = target) := by
  cases read <;> cases target <;> cases now <;> revert h <;> decide

theorem legal_updateState {t : PeriodTable} {id : PeriodId} {read target : PeriodState}
    (h : PeriodCalendar.permitted read target = true) : Legal t (t.updateState id target) ↔
      ∀ r, t.rows.get? id = some r → r.state = read ∨ r.state = target := by
  cases hr : t.rows.get? id with
  | none =>
    rw [PeriodTable.updateState_none hr]
    exact iff_of_true (legal_refl t) fun r h => by cases h
  | some r =>
    constructor
    · rintro hl _ ⟨⟩
      obtain ⟨r', hr', hst⟩ := hl id r hr
      rw [PeriodTable.get?_updateState hr, if_pos rfl] at hr'
      cases hr'
      exact (permitted_from h).1 hst
    · intro hf id' q hq
      rw [PeriodTable.get?_updateState hr]
      split
      · rename_i e
        subst e
        obtain rfl : r = q := by simpa [hr] using hq
        exact ⟨_, rfl, (permitted_from h).2 (hf r rfl)⟩
      · exact ⟨q, hq, .inl rfl⟩

/-- A step from a reachable state is legal exactly when it is fresh. -/
theorem legal_iff_fresh {D : Dialect} {s u : St} {l : Lbl} (hr : (race D).Reachable s)
    (st : step D s l = some u) : Legal s.table u.table ↔ Fresh s l := by
  cases effect_of_step st with
  | refused reads => exact iff_of_true (legal_refl _) reads
  | checked reads => exact iff_of_true (legal_refl _) reads
  | @written i id read target label pending =>
    rw [St.write, legal_updateState (inv_reachable hr i id read target pending)]
    rcases label with rfl | rfl <;> simp [Fresh, pending]

theorem legal_sealed {t u : PeriodTable} (h : Legal t u) {id : PeriodId} {r : Period}
    (hr : t.rows.get? id = some r) (hs : r.state = .sealed) :
    ∃ r', u.rows.get? id = some r' ∧ r'.state = .sealed := by
  obtain ⟨r', hr', hst⟩ := h id r hr
  refine ⟨r', hr', ?_⟩
  rcases hst with e | hp
  · rw [e, hs]
  · rw [hs] at hp
    cases hst : r'.state <;> rw [hst] at hp <;> cases hp

/-! ## Runs -/

/-- **The lifecycle under concurrency.** In every run whose writes are all fresh,
every step changes states along the lifecycle and a sealed row stays sealed; and
in any reachable state a step does so exactly when its write is fresh. -/
theorem lifecycle_of_fresh (D : Dialect) :
    (∀ s ls u, (race D).Reachable s → ((race D).restrict Fresh).Run s ls u →
      (∀ l v, ((race D).restrict Fresh).step u l v → Legal u.table v.table) ∧
      ∀ id r, s.table.rows.get? id = some r → r.state = .sealed →
        ∃ r', u.table.rows.get? id = some r' ∧ r'.state = .sealed) ∧
    (∀ s l u, (race D).Reachable s → (race D).step s l u → (Legal s.table u.table ↔ Fresh s l)) := by
  refine ⟨fun s ls u hr run => ⟨fun l v st => ?_, ?_⟩, fun s l u hr st => legal_iff_fresh hr st⟩
  · exact (legal_iff_fresh (hr.run run.of_restrict) st.1).2 st.2
  · refine run.rel (I := (race D).Reachable) (fun s l t h st => h.step (LTS.restrict_step.1 st).1)
      (R := fun s u => ∀ id r, s.table.rows.get? id = some r → r.state = .sealed →
        ∃ r', u.table.rows.get? id = some r' ∧ r'.state = .sealed)
      (fun _ _ r hr hs => ⟨r, hr, hs⟩) (fun _ _ _ h h' id r hr hs => ?_)
      (fun s l u hs st id r => ?_) hr
    · obtain ⟨r', hr', hs'⟩ := h id r hr hs
      exact h' id r' hr' hs'
    · obtain ⟨st, hf⟩ := LTS.restrict_step.1 st
      exact legal_sealed ((legal_iff_fresh hs st).2 hf)

/-! ## The lost check -/

/-- March closing, every client idle. -/
def marchClosing : St := ⟨PeriodTable.empty.upsert { march with state := .closing }, fun _ => .idle⟩

/-- Client 0 checks an abandoned close, client 1 seals. -/
def sealedMeanwhile (D : Dialect) : St :=
  (LTS.exec (step D) marchClosing [.readTransition 0 march.id .open, .readSeal 1 march.id, .commit 1]).getD
    marchClosing

def stateOf (s : St) (id : PeriodId) : Option PeriodState := (s.table.rows.get? id).map (·.state)

/-- **A sealed period reopened.** The client that checked `closing → open` before
the seal writes `open` after it, on both backends. -/
theorem reopened_after_seal :
    ((race sqlite).Reachable (sealedMeanwhile sqlite) ∧
      stateOf (sealedMeanwhile sqlite) march.id = some .sealed ∧
      (step sqlite (sealedMeanwhile sqlite) (.update 0)).map (stateOf · march.id) = some (some .open)) ∧
    (race postgres).Reachable (sealedMeanwhile postgres) ∧
      stateOf (sealedMeanwhile postgres) march.id = some .sealed ∧
      (step postgres (sealedMeanwhile postgres) (.update 0)).map (stateOf · march.id) = some (some .open) := by
  have hi : ∀ i, marchClosing.clients i = .idle := fun _ => rfl
  refine ⟨⟨?_, by decide, by decide⟩, ?_, by decide, by decide⟩
  · exact LTS.reachable_of_exec _ hi (LTS.exec_getD (by decide))
  · exact LTS.reachable_of_exec _ hi (LTS.exec_getD (by decide))

/-! ## Two clients, one write each -/

/-- A write is fresh while the row is in the state that was read. -/
theorem fresh_of_stateOf {s : St} {i : Nat} (id : PeriodId) (read target : PeriodState)
    (hp : (s.clients i).pending = some (id, read, target)) (hs : stateOf s id = some read) :
    Fresh s (.update i) ∧ Fresh s (.commit i) := by
  have hfresh : ∀ id' read' target', (s.clients i).pending = some (id', read', target') →
      ∀ r, s.table.rows.get? id' = some r → r.state = read' ∨ r.state = target' := by
    rintro id' read' target' hp' r hr
    obtain ⟨rfl, rfl, -⟩ : id = id' ∧ read = read' ∧ target = target' := by simpa using hp.symm.trans hp'
    rw [stateOf, hr] at hs
    exact .inl (Option.some.inj hs)
  exact ⟨hfresh, hfresh⟩

/-- March closing and April open, every client idle. -/
def twoMonths : St := ⟨(PeriodTable.empty.upsert { march with state := .closing }).upsert april, fun _ => .idle⟩

/-- Client 1 checks a seal of March; before it commits, client 0 reads the calendar and writes. -/
def aprilClosing : St :=
  (LTS.exec (step postgres) twoMonths [.readSeal 1 march.id, .readTransition 0 april.id .closing, .update 0]).getD twoMonths

def marchSealed : St := aprilClosing.write 1 march.id .sealed

/-- Client 0 checks that April may open again. -/
def aprilChecked : St := (step postgres marchSealed (.readTransition 0 april.id .open)).getD marchSealed

def aprilReopened : St := aprilChecked.write 0 april.id .open

/-- Not vacuous: the seal of March is a fresh write after the other client's, and March is still
sealed after the next one. -/
theorem seal_is_fresh : stateOf aprilClosing april.id = some .closing ∧ (race postgres).step aprilClosing (.commit 1) marchSealed ∧
    Legal aprilClosing.table marchSealed.table ∧ Legal aprilChecked.table aprilReopened.table ∧
    stateOf aprilReopened april.id = some .open ∧
    ∃ r, aprilReopened.table.rows.get? march.id = some r ∧ r.state = .sealed := by
  obtain ⟨hrun, hstep⟩ := lifecycle_of_fresh postgres
  have hclosing : (race postgres).Reachable aprilClosing := LTS.reachable_of_exec _ (fun _ => rfl) (LTS.exec_getD (by decide))
  have hseal : (race postgres).step aprilClosing (.commit 1) marchSealed := rfl
  have hread : ((race postgres).restrict Fresh).step marchSealed (.readTransition 0 april.id .open) aprilChecked := ⟨rfl, trivial⟩
  have hupdate : ((race postgres).restrict Fresh).step aprilChecked (.update 0) aprilReopened :=
    ⟨rfl, (fresh_of_stateOf april.id .closing .open rfl (by decide)).1⟩
  have hsealed := hclosing.step hseal
  have hfresh : Fresh aprilClosing (.commit 1) :=
    (fresh_of_stateOf march.id .closing .sealed rfl (by decide)).2
  refine ⟨by decide, hseal, (hstep _ _ _ hclosing hseal).2 hfresh, ?_, by decide, ?_⟩
  · exact (hrun _ _ _ hsealed (.cons hread (.nil _))).1 _ _ hupdate
  · exact (hrun _ _ _ hsealed (.cons hread (.cons hupdate (.nil _)))).2 march.id _ rfl (by decide)

end DoubleEntry.L5.PeriodRace
