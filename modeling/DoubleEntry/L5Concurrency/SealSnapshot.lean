import DoubleEntry.L5Concurrency.ClientLog

/-!
# What a stored seal describes

`seal_period` reads the span of the period, the closing balances and the head of
the log in three statements of no common transaction. A seal is of one log state
(`Describes`) when nothing it counts joins the log between the first of them and
the last: nothing booked in the period after the span is read, and nothing
booked by its end after the balances are (`Client.Lets`).

Over steps that keep to it every stored seal describes the log up to its head
(`seal_describes_prefix`); an append between the span and the balances stores a
seal that counts no entry and balances one (`torn_seal`).

**Assumptions.** `Undisturbed`, of each step: every client that seals lets in what joins the log,
and the step is `Ordinary`: SQL compares dates as the calendar does, and a definition moves no
range in use.

**Results.**
* `describes_whole`: what is read from one log describes it.
* `Consistent.append`, `consistent_of_reads`: entries that are let in, and a read.
* `seal_describes_prefix`, `torn_seal`: runs, and one append in between.
-/
namespace DoubleEntry.L5

open DoubleEntry.Core DoubleEntry.L1 DoubleEntry.L2 DoubleEntry.L3 DoubleEntry.L4

variable {H : Type} [Blake3 H] [DecidableEq H] {P : Scale}

/-! ## One log state -/

/-- Coverage, closing balances and head are those of one prefix of the log. -/
structure Describes (log : List (Logged H P)) (p : Period) (coverage : PeriodCoverage)
    (trialBalance head : TreeHead H) : Prop where
  size : head.size ≤ log.length
  root : head.root = mth (hashes (log.take head.size))
  coverage : coverage = coverageOf ((log.take head.size).map (·.entry)) p.start p.end
  closing : ∃ tb, closingBalance ((log.take head.size).map (·.entry)) p.end = .ok tb ∧
    trialBalance = trialBalanceHead tb

/-- A seal describes the log up to its head. -/
def SealDescribes (log : List (Logged H P)) (p : Period) (x : Seal H) : Prop :=
  Describes log p ⟨x.firstIndex, x.lastIndex, x.entryCount⟩ x.trialBalance x.treeHead

omit [DecidableEq H] in
theorem Describes.append {log later : List (Logged H P)} {p : Period} {coverage : PeriodCoverage}
    {trialBalance head : TreeHead H} (h : Describes log p coverage trialBalance head) :
    Describes (log ++ later) p coverage trialBalance head := by
  have htake : (log ++ later).take head.size = log.take head.size := List.take_append_of_le_length h.size
  constructor
  · have := h.size
    simp
    omega
  · rw [htake]; exact h.root
  · rw [htake]; exact h.coverage
  · rw [htake]; exact h.closing

omit [DecidableEq H] in
theorem Describes.range {log : List (Logged H P)} {p q : Period} {coverage : PeriodCoverage}
    {trialBalance head : TreeHead H} (h : Describes log p coverage trialBalance head) (hs : q.start = p.start)
    (he : q.end = p.end) : Describes log q coverage trialBalance head where
  size := h.size
  root := h.root
  coverage := by rw [hs, he]; exact h.coverage
  closing := by rw [he]; exact h.closing

omit [DecidableEq H] in
/-- What is read from the whole log describes it. -/
theorem describes_whole {log : List (Logged H P)} {p : Period} {tb : TrialBalance P}
    (h : closingBalance (log.map (·.entry)) p.end = .ok tb) :
    Describes log p (coverageOf (log.map (·.entry)) p.start p.end) (trialBalanceHead tb)
      ⟨log.length, mth (hashes log)⟩ where
  size := le_rfl
  root := by rw [List.take_length]
  coverage := by rw [List.take_length]
  closing := ⟨tb, by rw [List.take_length]; exact h, rfl⟩

omit [Blake3 H] [DecidableEq H] in
theorem coverageOf_append {l l' : List (Entry H .balanced P)} {start stop : Date}
    (h : ∀ e ∈ l', ¬ (start ≤ e.bookingDate ∧ e.bookingDate ≤ stop)) :
    coverageOf (l ++ l') start stop = coverageOf l start stop := by
  have hp : positions (l ++ l') start stop = positions l start stop := by
    induction l' using List.reverseRecOn with
    | nil => rw [List.append_nil]
    | append_singleton l' e ih =>
      rw [← List.append_assoc, positions_concat, if_neg (h e (by simp)), List.append_nil]
      exact ih fun x hx => h x (by simp [hx])
  rw [coverageOf_eq, coverageOf_eq, hp]

/-! ## What a client has read -/

namespace Client

/-- An entry booked on `d` may join the log without touching what was read. -/
def Lets (d : Date) : Client H P → Prop
  | .spanned p _ => ¬ (p.start ≤ d ∧ d ≤ p.end)
  | .folded p _ _ | .chained p _ _ _ _ => p.end < d
  | _ => True

omit [Blake3 H] [DecidableEq H] in
instance (d : Date) (c : Client H P) : Decidable (c.Lets d) := by cases c <;> unfold Lets <;> infer_instance

/-- What was read of the log is of one state, the current one up to the read of the head. -/
def Consistent (log : List (Logged H P)) : Client H P → Prop
  | .spanned p coverage => coverage = coverageOf (log.map (·.entry)) p.start p.end
  | .folded p coverage closing | .chained p coverage closing _ _ =>
    coverage = coverageOf (log.map (·.entry)) p.start p.end ∧ closingBalance (log.map (·.entry)) p.end = .ok closing
  | .headed p coverage closing _ _ head => Describes log p coverage (trialBalanceHead closing) head
  | .built p _ x => x.period = p.id ∧ SealDescribes log p x
  | _ => True

omit [DecidableEq H] in
/-- Entries a client lets join leave its reads consistent. -/
theorem Consistent.append {log later : List (Logged H P)} {c : Client H P} (h : c.Consistent log)
    (hl : ∀ x ∈ later, c.Lets x.entry.bookingDate) : c.Consistent (log ++ later) := by
  have mem : ∀ e ∈ later.map (·.entry), c.Lets e.bookingDate := fun e he => by
    obtain ⟨x, hx, rfl⟩ := List.mem_map.1 he
    exact hl x hx
  cases c with
  | spanned p coverage =>
    simp only [Consistent, Lets, List.map_append] at h mem ⊢
    rw [coverageOf_append mem]
    exact h
  | folded p coverage closing =>
    simp only [Consistent, Lets, List.map_append] at h mem ⊢
    rw [coverageOf_append fun e he hc => not_le.2 (mem e he) hc.2, closingBalance_append mem]
    exact h
  | chained p coverage closing position prev =>
    simp only [Consistent, Lets, List.map_append] at h mem ⊢
    rw [coverageOf_append fun e he hc => not_le.2 (mem e he) hc.2, closingBalance_append mem]
    exact h
  | headed p coverage closing position prev head => exact Describes.append h
  | built p position x => exact ⟨h.1, Describes.append h.2⟩
  | idle => exact trivial
  | updating id target => exact trivial
  | checked p => exact trivial

end Client

namespace St

variable {B : Backend} {s s' : St H P} {l : Lbl H P}

omit [DecidableEq H] in
/-- A read takes consistent reads to consistent reads. -/
theorem consistent_of_reads {c c' : Client H P} (h : Client.Reads B s.tables l c c') (hb : Base B s)
    (hm : c ∈ s.clients) (hc : c.Consistent s.tables.log) : c'.Consistent s.tables.log := by
  have hdates := hb.definitions c hm
  cases h with
  | ends => exact trivial
  | transition => exact trivial
  | calendar => exact trivial
  | @span i p =>
    obtain ⟨hs, he, -⟩ := hdates p rfl
    exact Tables.span_eq hb.log.logOf hs he hb.rows
  | @balances i p coverage closing ok =>
    obtain ⟨-, he, -⟩ := hdates p rfl
    exact ⟨hc, ((Tables.trialBalance_eq_ok hb.log.toRowsOf he hb.rows).1 ok).2⟩
  | chain => exact hc
  | @head i position p coverage closing prev =>
    obtain ⟨rfl, htb⟩ := hc
    show Describes s.tables.log p _ _ s.tables.head
    rw [Tables.head_eq hb.log.logOf]
    exact describes_whole htb
  | accounts => exact ⟨rfl, hc⟩

/-- The step is ordinary, and what joins the log disturbs no seal being taken. -/
def Undisturbed (B : Backend) (s : St H P) (l : Lbl H P) : Prop :=
  Ordinary B s l ∧ ∀ c ∈ s.clients, ∀ e ∈ s.joining l, c.Lets e.bookingDate

omit [DecidableEq H] in
instance : DecidablePred (Undisturbed B s) := fun l => by unfold Undisturbed; infer_instance

/-- Clients have read one log state, and stored seals describe one. -/
structure Described (B : Backend) (s : St H P) : Prop extends Base B s where
  reads : ∀ c ∈ s.clients, c.Consistent s.tables.log
  seals : ∀ x ∈ s.tables.seals, ∃ r, s.tables.periods.rows.get? x.period = some r ∧ SealDescribes s.tables.log r x

theorem Effect.described (h : Effect B s l s') (hd : Described B s) (hu : Undisturbed B s l) : Described B s' := by
  obtain ⟨ls, -, hlog, hls⟩ := h.log hd.log
  have hlets : ∀ c ∈ s.clients, ∀ x ∈ ls, c.Lets x.entry.bookingDate := fun c hc x hx => by
    obtain ⟨e, he, -, hdate⟩ := hls x hx
    rw [← hdate]
    exact hu.2 c hc e he
  have old : ∀ c ∈ s.clients, c.Consistent s'.tables.log := fun c hc => by
    rw [hlog]
    exact (hd.reads c hc).append (hlets c hc)
  refine ⟨h.base hd.toBase hu.1, fun c hc => ?_, ?_⟩
  · rcases h.clients hc with hc | rfl | ⟨c₀, hc₀, hread, ht⟩
    · exact old c hc
    · exact trivial
    · rw [ht]
      have hm := List.mem_of_getElem? hc₀
      exact consistent_of_reads hread hd.toBase hm (hd.reads c₀ hm)
  · -- a stored seal keeps its row and its prefix
    have kept : ∀ x ∈ s.tables.seals, ∃ r, s'.tables.periods.rows.get? x.period = some r ∧
        SealDescribes s'.tables.log r x := fun x hx => by
      obtain ⟨r, hr, hx'⟩ := hd.seals x hx
      obtain ⟨r', hr', hs, he⟩ := h.ranges hd.log hu.1 (.inr ⟨x, hx, rfl⟩) r hr
      rw [hlog]
      exact ⟨r', hr', Describes.append (Describes.range hx' hs he)⟩
    intro x hx
    rcases h.seals hd.log hx with hx | ⟨i, position, p, rfl, hc, ht⟩
    · exact kept x hx
    · have hx' : x.period = p.id ∧ SealDescribes s'.tables.log p x := old _ hc
      obtain ⟨-, -, r, hr, hs, he⟩ := hd.definitions _ hc p rfl
      obtain ⟨r', hr', hs', he'⟩ := h.ranges hd.log hu.1 (.inl ⟨_, hc, p, rfl, rfl⟩) r hr
      rw [hx'.1]
      exact ⟨r', hr', Describes.range hx'.2 (hs'.trans hs) (he'.trans he)⟩

omit [DecidableEq H] in
theorem described_initial (B : Backend) (ledger : LedgerId) (clients : Nat) :
    Described B (initial ledger clients : St H P) where
  toBase := base_initial B ledger clients
  reads c hc := by
    rw [List.eq_of_mem_replicate hc]
    exact trivial
  seals := by simp [initial, Tables.empty]

/-- **A stored seal describes one log state**: in every state that undisturbed
steps reach, its coverage, its trial balance and its head are those of the log's
entries up to that head. -/
theorem seal_describes_prefix (B : Backend) (s : St H P)
    (h : ((system B).restrict (Undisturbed B)).Reachable s) :
    ∀ x ∈ s.tables.seals, ∃ r, s.tables.periods.rows.get? x.period = some r ∧ SealDescribes s.tables.log r x := by
  refine (LTS.Inductive.reachable (I := Described B) ⟨?_, fun s l s' hd st => ?_⟩ h).seals
  · rintro _ ⟨ledger, clients, rfl⟩
    exact described_initial B ledger clients
  · exact (effect_of_step st.1).described hd st.2

/-- The sale, and March sealed over it. -/
def sealedInOrder : List (Lbl Preimage cents) :=
  marchSale ++ [.append [soldInMarch]] ++ closeMarch ++ sealMarch

set_option maxRecDepth 10000 in
/-- Not vacuous: a run that seals March over the sale is undisturbed. -/
theorem march_seal_describes : (afterRun .sqlite sealedInOrder).tables.seals.length = 1 ∧
    ∀ x ∈ (afterRun .sqlite sealedInOrder).tables.seals, ∃ r,
      (afterRun .sqlite sealedInOrder).tables.periods.rows.get? x.period = some r ∧
        SealDescribes (afterRun .sqlite sealedInOrder).tables.log r x :=
  ⟨by decide, seal_describes_prefix .sqlite _ (reachable_restrict_afterRun (by decide))⟩

/-- The sale appended between the span and the balances. -/
def sealedAcross : List (Lbl Preimage cents) :=
  marchSale ++ closeMarch ++ [.readSpan 0, .append [soldInMarch], .readBalances 0, .readSeals 0, .readHead 0,
    .readAccounts 0, .commitSeal 0]

omit [DecidableEq H] in
/-- A seal that counts no entry of a log that has one in its period. -/
theorem not_describes_of_coverage {log : List (Logged H P)} {p : Period} {x : Seal H}
    (h : (⟨x.firstIndex, x.lastIndex, x.entryCount⟩ : PeriodCoverage) ≠
      coverageOf ((log.take x.treeHead.size).map (·.entry)) p.start p.end) : ¬ SealDescribes log p x :=
  fun hd => h hd.coverage

set_option maxRecDepth 10000 in
/-- **A torn seal.** An append between the reads of the span and of the balances:
the stored seal counts no entry, its trial balance has the rows of one and its
head covers it. On both backends. -/
theorem torn_seal :
    ((system .sqlite).Reachable (afterRun .sqlite sealedAcross) ∧
      ∃ x ∈ (afterRun .sqlite sealedAcross).tables.seals,
        ∀ r ∈ (afterRun .sqlite sealedAcross).tables.periods.rows.get? x.period,
          ¬ SealDescribes (afterRun .sqlite sealedAcross).tables.log r x) ∧
    (system .postgres).Reachable (afterRun .postgres sealedAcross) ∧
      ∃ x ∈ (afterRun .postgres sealedAcross).tables.seals,
        ∀ r ∈ (afterRun .postgres sealedAcross).tables.periods.rows.get? x.period,
          ¬ SealDescribes (afterRun .postgres sealedAcross).tables.log r x := by
  have torn : ∀ B : Backend,
      (∃ x ∈ (afterRun B sealedAcross).tables.seals,
        ∀ r ∈ (afterRun B sealedAcross).tables.periods.rows.get? x.period,
          (⟨x.firstIndex, x.lastIndex, x.entryCount⟩ : PeriodCoverage) ≠
            coverageOf (((afterRun B sealedAcross).tables.log.take x.treeHead.size).map (·.entry)) r.start r.end) →
      ∃ x ∈ (afterRun B sealedAcross).tables.seals,
        ∀ r ∈ (afterRun B sealedAcross).tables.periods.rows.get? x.period,
          ¬ SealDescribes (afterRun B sealedAcross).tables.log r x :=
    fun B ⟨x, hx, h⟩ => ⟨x, hx, fun r hr => not_describes_of_coverage (h r hr)⟩
  exact ⟨⟨reachable_afterRun (by decide), torn _ (by decide)⟩, reachable_afterRun (by decide), torn _ (by decide)⟩

end St

end DoubleEntry.L5
