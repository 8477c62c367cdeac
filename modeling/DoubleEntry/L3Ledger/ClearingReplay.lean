import DoubleEntry.L3Ledger.ClearingRun

/-!
# Replaying the events of a register

A register that accepts a list of events in order, each `clear` over one book, is that of a
run with these events (`replay_reachable`), and no clearing is reset twice in them
(`nodup_resets`). It accepts them over a book with more postings too (`replay_mono`).

The stores of the SQL backends keep events, not a register: that what they hold is the
register of a run is a replay.

**Assumptions.** None on the postings for `replay_reachable` and `nodup_resets`. For `replay_mono`
they are positive, as those of sealed entries are, and the larger book finds each posting of the
smaller one as it is.
-/
namespace DoubleEntry.L3.ClearingRegister

open DoubleEntry.Core DoubleEntry.L1

variable {P : Scale} {lookup lookup' : PostingRef → Option (Posting P)}

/-- The call an event records. -/
def callOf (lookup : PostingRef → Option (Posting P)) : ClearingEvent P → RegisterCall P
  | .cleared c => .clear c lookup
  | .reset id on => .reset id on

/-- The register that accepts the events in order. -/
def replay (lookup : PostingRef → Option (Posting P)) (events : List (ClearingEvent P)) :
    Except ClearingError (ClearingRegister P) :=
  events.foldlM (fun r event => r.act (callOf lookup event)) new

/-- The clearings that were reset. -/
def resets (events : List (ClearingEvent P)) : List ClearingId := events.filterMap fun
  | .cleared _ => none
  | .reset id _ => some id

theorem resets_append (l l' : List (ClearingEvent P)) : resets (l ++ l') = resets l ++ resets l' := List.filterMap_append

theorem resolves_callOf (event : ClearingEvent P) : Resolves lookup (callOf lookup event) := by
  cases event with
  | cleared c => exact fun _ _ h => h
  | reset => trivial

theorem replay_concat {events : List (ClearingEvent P)} {event : ClearingEvent P} {r : ClearingRegister P} :
    replay lookup (events ++ [event]) = .ok r ↔
      ∃ r₀, replay lookup events = .ok r₀ ∧ r₀.act (callOf lookup event) = .ok r := by
  unfold replay
  rw [List.foldlM_append, bind_eq_ok]
  simp only [List.foldlM_cons, List.foldlM_nil, bind_pure]

theorem events_of_act {r r' : ClearingRegister P} {event : ClearingEvent P} (h : r.act (callOf lookup event) = .ok r') :
    r'.events = r.events ++ [event] := by
  cases event with
  | cleared c =>
    obtain ⟨-, -, -, -, -, -, -, -, rfl⟩ := clear_eq_ok.1 h
    rfl
  | reset id on =>
    obtain ⟨-, -, -, -, -, -, -, rfl⟩ := reset_eq_ok.1 h
    rfl

/-- A replay is a run that records its events. -/
theorem replay_reachable {events : List (ClearingEvent P)} {r : ClearingRegister P} (h : replay lookup events = .ok r) :
    (registers lookup).Reachable r ∧ r.events = events := by
  induction events using List.reverseRecOn generalizing r with
  | nil =>
    cases h
    exact ⟨.of_init rfl, rfl⟩
  | append_singleton events event ih =>
    obtain ⟨r₀, hr₀, hact⟩ := replay_concat.1 h
    obtain ⟨hreach, hevents⟩ := ih hr₀
    refine ⟨hreach.step (step_of_act (resolves_callOf event) hact), ?_⟩
    rw [events_of_act hact, hevents]

/-- **No clearing is reset twice.** The second reset would be refused. -/
theorem nodup_resets {events : List (ClearingEvent P)} {r : ClearingRegister P} (h : replay lookup events = .ok r) :
    (resets events).Nodup ∧ ∀ id ∈ resets events, (r.resetOn.get? id).isSome := by
  induction events using List.reverseRecOn generalizing r with
  | nil => exact ⟨.nil, fun _ hid => absurd hid List.not_mem_nil⟩
  | append_singleton events event ih =>
    obtain ⟨r₀, hr₀, hact⟩ := replay_concat.1 h
    obtain ⟨hn, hmem⟩ := ih hr₀
    rw [resets_append]
    cases event with
    | cleared c =>
      obtain ⟨-, -, -, -, -, -, -, -, rfl⟩ := clear_eq_ok.1 hact
      rw [show resets [ClearingEvent.cleared c] = [] from rfl, List.append_nil]
      exact ⟨hn, hmem⟩
    | reset id on =>
      obtain ⟨-, -, -, -, hunreset, -, -, rfl⟩ := reset_eq_ok.1 hact
      rw [show resets [(ClearingEvent.reset id on : ClearingEvent P)] = [id] from rfl]
      constructor
      · refine List.nodup_append.2 ⟨hn, List.nodup_singleton id, fun a ha b hb hab => ?_⟩
        rw [hab, List.mem_singleton.1 hb] at ha
        have hsome := hmem id ha
        rw [hunreset] at hsome
        cases hsome
      · intro other hother
        show ((r₀.resetOn.insert id on).get? other).isSome
        rw [OrdMap.get?_insert]
        split
        · rfl
        · rename_i hne
          rcases List.mem_append.1 hother with hother | hother
          · exact hmem other hother
          · exact absurd (List.mem_singleton.1 hother).symm hne

/-- A call that is accepted stays accepted where more postings are found. -/
theorem act_mono (hmore : ∀ ref p, lookup ref = some p → lookup' ref = some p) {r r' : ClearingRegister P}
    (hr : Consistent lookup r) {event : ClearingEvent P} (h : r.act (callOf lookup event) = .ok r') :
    r.act (callOf lookup' event) = .ok r' := by
  cases event with
  | reset => exact h
  | cleared c =>
    obtain ⟨hid, hlen, seen, sides, applied, hfold, hbal, happlied, hr'⟩ := clear_eq_ok.1 h
    have hsame := checkItems_mono hmore (fun ref => ⟨hr.applied_nonneg ref, le_rfl⟩) hfold
    exact clear_eq_ok.2 ⟨hid, hlen, seen, sides, applied, hsame, hbal, happlied, hr'⟩

/-- **More postings** change no replay. -/
theorem replay_mono (hpos : ∀ ref p, lookup ref = some p → 0 < p.amount.minor)
    (hmore : ∀ ref p, lookup ref = some p → lookup' ref = some p) {events : List (ClearingEvent P)}
    {r : ClearingRegister P} (h : replay lookup events = .ok r) : replay lookup' events = .ok r := by
  induction events using List.reverseRecOn generalizing r with
  | nil => exact h
  | append_singleton events event ih =>
    obtain ⟨r₀, hr₀, hact⟩ := replay_concat.1 h
    have hcons := consistent_of_reachable hpos (replay_reachable hr₀).1
    exact replay_concat.2 ⟨r₀, ih hr₀, act_mono hmore hcons hact⟩

end DoubleEntry.L3.ClearingRegister
