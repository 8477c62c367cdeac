import DoubleEntry.L3Ledger.Representation

/-!
# Reading balances from a journal

Five ways to the balance of a key: the maintained row, the sites of the key up to a
size, the sites filtered by date, a replay of a prefix or of the entries booked by a
date, and the running balance of a statement. Each returns, and each is the fold of
the postings on the key over the entries meant (`reads_agree`): the sites resolve to
these postings in log order, and amounts of entries on file are positive, so no part
of them leaves the range that the whole keeps.

**Assumptions.** The journal is one that operations on sealed entries reach. Nothing is
assumed of the key, the size or the date.

**Results.**
* `Kept.part_ok`: part of the entries on file folds, because the whole does.
* `Kept.foldOf_eq`, `Kept.balance_eq`, `Kept.balanceOnDate_eq`, `Kept.statement_spec`: one lemma
  a read.
* `reads_agree`: all of them, now, at a size and by a date.
-/
namespace DoubleEntry.L3

open DoubleEntry.Core DoubleEntry.L1 DoubleEntry.L2

/-- mirrors src/storage.rs:649-666 -/
structure StatementLine (P : Scale) where
  index : Nat
  posting : PostingRef
  bookingDate : Date
  direction : Direction
  amount : Amount P
  running : Balance P
  kind : Option Label

namespace Journal

variable {H : Type} [Blake3 H] {P : Scale}

/-! ## Reads -/

/-- An entry and its posting at a site. mirrors src/journal.rs:1014-1018 -/
def resolveEntry (j : Journal H P) (site : Site) : Option (Entry H .balanced P × Posting P) :=
  (j.at site.index).bind fun entry => entry.postings[site.posting]?.map fun posting => (entry, posting)

/-- mirrors src/journal.rs:1020-1024 -/
def entriesPrefix (j : Journal H P) (size : Nat) : List (Entry H .balanced P) := j.entries.take size

/-- mirrors src/journal.rs:1030-1041 -/
def postingsOnPrefix (j : Journal H P) (key : BalanceKey) (size : Option Nat) : List (Posting P) :=
  (((j.sites.get? key).getD []).takeWhile fun site => size.all fun n => site.index < n).filterMap fun site =>
    (j.resolveEntry site).map Prod.snd

/-- mirrors src/journal.rs:842-856 -/
def trialBalance (j : Journal H P) : Option Nat → Except MoneyError (TrialBalance P)
  | none => .ok j.balances
  | some size =>
    if j.entries.length ≤ size then .ok j.balances
    else TrialBalance.new.applyAll (postingsOf (j.entriesPrefix size))

/-- mirrors src/journal.rs:870-879 -/
def balance (j : Journal H P) (key : BalanceKey) : Option Nat → Except MoneyError (Balance P)
  | none => .ok (j.balances.getOrZero key)
  | some size => (j.postingsOnPrefix key (some size)).foldlM (fun b p => b.add p.direction p.amount) Balance.zero

/-- mirrors src/journal.rs:890-901 -/
def balanceOnDate (j : Journal H P) (key : BalanceKey) (stop : Date) : Except MoneyError (Balance P) :=
  (((j.sites.get? key).getD []).filterMap j.resolveEntry).foldlM (fun b m =>
    if m.1.bookingDate ≤ stop then b.add m.2.direction m.2.amount else .ok b) Balance.zero

/-- The loop of `statement`. mirrors src/journal.rs:982-996 -/
def statementLines (j : Journal H P) : Balance P → List Site → Except MoneyError (List (StatementLine P))
  | _, [] => .ok []
  | running, site :: sites =>
    match j.resolveEntry site with
    | none => statementLines j running sites
    | some (entry, posting) => do
      let running ← running.add posting.direction posting.amount
      let lines ← statementLines j running sites
      .ok (⟨site.index, ⟨entry.id, site.posting⟩, entry.bookingDate, posting.direction, posting.amount, running,
        entry.kind⟩ :: lines)

/-- mirrors src/journal.rs:979-998 -/
def statement (j : Journal H P) (key : BalanceKey) : Except MoneyError (List (StatementLine P)) :=
  j.statementLines .zero ((j.sites.get? key).getD [])

/-! ## What the sites resolve to -/

section
omit [Blake3 H]

/-- The postings on a key with their entries, in log order. -/
def movesOn (entries : List (Entry H .balanced P)) (key : BalanceKey) : List (Entry H .balanced P × Posting P) :=
  entries.flatMap fun e => (e.postings.filter (·.key = key)).map fun p => (e, p)

def foldOf (entries : List (Entry H .balanced P)) (key : BalanceKey) : Except MoneyError (Balance P) :=
  Balance.zero.addAll ((postingsOf entries).filter (·.key = key))

theorem movesOn_cons (e : Entry H .balanced P) (l : List (Entry H .balanced P)) (key : BalanceKey) :
    movesOn (e :: l) key = (e.postings.filter (·.key = key)).map (fun p => (e, p)) ++ movesOn l key := rfl

theorem map_snd_movesOn (entries : List (Entry H .balanced P)) (key : BalanceKey) :
    (movesOn entries key).map Prod.snd = (postingsOf entries).filter (·.key = key) := by
  induction entries with
  | nil => rfl
  | cons e l ih =>
    have hone : ((e.postings.filter (·.key = key)).map fun p => (e, p)).map Prod.snd =
        e.postings.filter (·.key = key) := by simp
    have hsplit : postingsOf (e :: l) = e.postings ++ postingsOf l := rfl
    rw [movesOn_cons, List.map_append, ih, hone, hsplit, List.filter_append]

theorem movesOn_through (stop : Date) (entries : List (Entry H .balanced P)) (key : BalanceKey) :
    movesOn (through stop entries) key = (movesOn entries key).filter fun m => m.1.bookingDate ≤ stop := by
  induction entries with
  | nil => rfl
  | cons e l ih =>
    rw [movesOn_cons, List.filter_append, ← ih]
    by_cases hd : e.bookingDate ≤ stop
    · have hall : ((e.postings.filter (·.key = key)).map fun p => (e, p)).filter (fun m => m.1.bookingDate ≤ stop) =
          (e.postings.filter (·.key = key)).map fun p => (e, p) := by
        refine List.filter_eq_self.2 fun m hm => ?_
        obtain ⟨p, -, rfl⟩ := List.mem_map.1 hm
        exact decide_eq_true hd
      have hkeep : through stop (e :: l) = e :: through stop l := List.filter_cons_of_pos (by simpa using hd)
      rw [hall, hkeep, movesOn_cons]
    · have hnone : ((e.postings.filter (·.key = key)).map fun p => (e, p)).filter (fun m => m.1.bookingDate ≤ stop) = [] := by
        refine List.filter_eq_nil_iff.2 fun m hm => ?_
        obtain ⟨p, -, rfl⟩ := List.mem_map.1 hm
        simpa using hd
      have hdrop : through stop (e :: l) = through stop l := List.filter_cons_of_neg (by simpa using hd)
      rw [hnone, List.nil_append, hdrop]

end

/-- The sites of numbered entries resolve to their postings. -/
theorem filterMap_resolveEntry {j : Journal H P} {l : List (Entry H .balanced P × Nat)}
    (h : ∀ e ∈ l, j.entries[e.2]? = some e.1) (key : BalanceKey) :
    (l.flatMap fun e => (e.1.postings.zipIdx.filter fun p => p.1.key = key).map fun p => (⟨e.2, p.2⟩ : Site)).filterMap
      j.resolveEntry = movesOn (l.map Prod.fst) key := by
  induction l with
  | nil => rfl
  | cons e l ih =>
    have hat : j.entries[e.2]? = some e.1 := h e List.mem_cons_self
    have hone : ((e.1.postings.zipIdx.filter fun p => p.1.key = key).map fun p => (⟨e.2, p.2⟩ : Site)).filterMap
        j.resolveEntry = (e.1.postings.filter (·.key = key)).map fun p => (e.1, p) := by
      rw [List.filterMap_map, ← map_fst_zipIdx_filter, List.map_map, ← List.filterMap_eq_map]
      refine List.filterMap_congr fun p hp => ?_
      have hget : e.1.postings[p.2]? = some p.1 := List.mem_zipIdx_iff_getElem?.1 (List.mem_filter.1 hp).1
      simp [resolveEntry, «at», hat, hget]
    rw [List.flatMap_cons, List.filterMap_append, hone, ih fun e he => h e (List.mem_cons_of_mem _ he)]
    rfl

theorem resolveEntry_sitesOf_take (j : Journal H P) (key : BalanceKey) (n : Nat) :
    (sitesOf (j.entries.take n) key).filterMap j.resolveEntry = movesOn (j.entries.take n) key := by
  have hnumbered : ∀ e ∈ (j.entries.take n).zipIdx, j.entries[e.2]? = some e.1 := by
    intro e he
    have hget := List.mem_zipIdx_iff_getElem?.1 he
    rw [List.getElem?_take] at hget
    split at hget
    · exact hget
    · cases hget
  have h := filterMap_resolveEntry hnumbered key
  rw [List.zipIdx_map_fst] at h
  exact h

theorem resolveEntry_sitesOf (j : Journal H P) (key : BalanceKey) :
    (sitesOf j.entries key).filterMap j.resolveEntry = movesOn j.entries key := by
  have h := j.resolveEntry_sitesOf_take key j.entries.length
  rwa [List.take_length] at h

omit [Blake3 H] in
/-- Sites below a size are those of the first entries. -/
theorem takeWhile_sitesOf (entries : List (Entry H .balanced P)) (key : BalanceKey) (n : Nat) :
    (sitesOf entries key).takeWhile (fun site => site.index < n) = sitesOf (entries.take n) key := by
  have hsplit : sitesOf entries key = sitesOf (entries.take n) key ++ ((entries.drop n).zipIdx (min n entries.length)).flatMap
      fun e => (e.1.postings.zipIdx.filter fun p => p.1.key = key).map fun p => ⟨e.2, p.2⟩ := by
    conv_lhs => rw [← List.take_append_drop n entries]
    rw [sitesOf, List.zipIdx_append, List.flatMap_append, List.length_take, zero_add]
    rfl
  have hlow : ∀ site ∈ sitesOf (entries.take n) key, decide (site.index < n) = true := by
    intro site hsite
    obtain ⟨e, he, hp⟩ := List.mem_flatMap.1 hsite
    obtain ⟨p, -, rfl⟩ := List.mem_map.1 hp
    obtain ⟨hlt, -⟩ := List.getElem?_eq_some_iff.1 (List.mem_zipIdx_iff_getElem?.1 he)
    rw [List.length_take] at hlt
    exact decide_eq_true (by show e.2 < n; omega)
  rw [hsplit, List.takeWhile_append_of_pos hlow, List.append_right_eq_self]
  refine List.takeWhile_eq_nil_iff.2 fun hpos => ?_
  obtain ⟨e, he, hp⟩ := List.mem_flatMap.1 (List.get_mem _ ⟨0, hpos⟩)
  obtain ⟨p, -, hsite⟩ := List.mem_map.1 hp
  obtain ⟨hge, hlt, -⟩ := List.mem_zipIdx he
  rw [List.length_drop] at hlt
  rw [← hsite, decide_eq_true_eq]
  show ¬ e.2 < n
  omega

/-! ## Every read is a fold -/

/-- Part of the entries on file folds, and so do the postings of each key. -/
theorem Kept.part_ok {j : Journal H P} (h : j.Kept) {l : List (Entry H .balanced P)} (hl : l.Sublist j.entries) :
    ∃ tb, TrialBalance.new.applyAll (postingsOf l) = .ok tb ∧ ∀ key, foldOf l key = .ok (tb.getOrZero key) := by
  have hpos : ∀ p ∈ postingsOf j.entries, 0 ≤ p.amount.minor := fun p hp => by
    obtain ⟨e, he, hpe⟩ := List.mem_flatMap.1 hp
    exact ((h.fromSeal e he).postable.1 p hpe).le
  have hsub : (postingsOf l).Sublist (postingsOf j.entries) := hl.flatMap _
  have hle : ∀ key d, gross d key (postingsOf l) ≤ i64Max := fun key d => by
    refine (gross_le hsub hpos).trans ?_
    rw [← (totals_of_applyAll h.posted.folded).side key d]
    exact Balance.side_le _ d
  obtain ⟨tb, htb⟩ := applyAll_ok (fun p hp => hpos p (hsub.subset hp)) hle
  exact ⟨tb, htb, fun key => (TrialBalance.get_of_applyAll htb key).1⟩

/-- Neither side of a fold of them is negative. -/
theorem Kept.part_nonneg {j : Journal H P} (h : j.Kept) {l : List (Entry H .balanced P)} (hl : l.Sublist j.entries)
    {tb : TrialBalance P} (htb : TrialBalance.new.applyAll (postingsOf l) = .ok tb) (key : BalanceKey) (d : Direction) :
    0 ≤ (tb.getOrZero key).side d := by
  rw [(totals_of_applyAll htb).side key d]
  refine gross_nonneg fun p hp => ?_
  obtain ⟨e, he, hpe⟩ := List.mem_flatMap.1 hp
  exact ((h.fromSeal e (hl.subset he)).postable.1 p hpe).le

theorem Kept.foldOf_eq {j : Journal H P} (h : j.Kept) (key : BalanceKey) :
    foldOf j.entries key = .ok (j.balances.getOrZero key) := (TrialBalance.get_of_applyAll h.posted.folded key).1

/-- The sites of a key, up to a size. -/
theorem Kept.balance_eq {j : Journal H P} (h : j.Kept) (key : BalanceKey) (size : Nat) :
    j.balance key (some size) = foldOf (j.entries.take size) key := by
  have hpostings : j.postingsOnPrefix key (some size) = (postingsOf (j.entries.take size)).filter (·.key = key) := by
    have hbelow : ((j.sites.get? key).getD []).takeWhile (fun site => (some size).all fun n => site.index < n) =
        sitesOf (j.entries.take size) key := by
      rw [h.sited.getD]
      exact takeWhile_sitesOf j.entries key size
    rw [postingsOnPrefix, hbelow, ← map_snd_movesOn, ← resolveEntry_sitesOf_take, List.map_filterMap]
  show (j.postingsOnPrefix key (some size)).foldlM _ _ = _
  rw [hpostings]
  rfl

/-- The sites of a key resolve to its postings. -/
theorem Kept.resolved {j : Journal H P} (h : j.Kept) (key : BalanceKey) :
    ((j.sites.get? key).getD []).filterMap j.resolveEntry = movesOn j.entries key := by
  rw [h.sited.getD, resolveEntry_sitesOf]

theorem Kept.balanceOnDate_eq {j : Journal H P} (h : j.Kept) (key : BalanceKey) (stop : Date) :
    j.balanceOnDate key stop = foldOf (through stop j.entries) key := by
  unfold balanceOnDate
  rw [h.resolved, foldOf, Balance.addAll, ← map_snd_movesOn, movesOn_through, List.foldlM_map, List.foldlM_filter]
  simp only [decide_eq_true_eq]
  rfl

/-! ## Statements -/

omit [Blake3 H] in
/-- Each line shows the fold of the lines up to it. -/
def Running (opening : Balance P) (lines : List (StatementLine P)) : Prop := ∀ n line, lines[n]? = some line →
  (lines.take (n + 1)).foldlM (fun b l => b.add l.direction l.amount) opening = .ok line.running

omit [Blake3 H] in
/-- The balance after the last line. -/
def closingOf (opening : Balance P) (lines : List (StatementLine P)) : Balance P :=
  lines.getLast?.elim opening (·.running)

omit [Blake3 H] in
theorem running_cons {opening : Balance P} {line : StatementLine P} {lines : List (StatementLine P)}
    (hline : opening.add line.direction line.amount = .ok line.running) (h : Running line.running lines) :
    Running opening (line :: lines) := by
  intro n l hl
  rw [List.take_succ_cons, List.foldlM_cons, hline]
  cases n with
  | zero =>
    obtain rfl : line = l := by simpa using hl
    rfl
  | succ n => exact h n l hl

/-- The loop, where the postings of the sites fold. -/
theorem statementLines_spec (j : Journal H P) {sites : List Site} {opening b : Balance P}
    (h : opening.addAll ((sites.filterMap j.resolveEntry).map Prod.snd) = .ok b) : ∃ lines,
      j.statementLines opening sites = .ok lines ∧ Running opening lines ∧ closingOf opening lines = b ∧
      lines.map (fun l => (l.direction, l.amount)) =
        ((sites.filterMap j.resolveEntry).map Prod.snd).map fun p => (p.direction, p.amount) := by
  induction sites generalizing opening with
  | nil =>
    cases h
    exact ⟨[], rfl, fun n line hl => by simp at hl, rfl, rfl⟩
  | cons site sites ih =>
    cases hr : j.resolveEntry site with
    | none =>
      rw [List.filterMap_cons_none hr] at h ⊢
      obtain ⟨lines, hlines, hrest⟩ := ih h
      exact ⟨lines, by rw [statementLines, hr]; exact hlines, hrest⟩
    | some m =>
      obtain ⟨entry, posting⟩ := m
      rw [List.filterMap_cons_some hr, List.map_cons] at h ⊢
      obtain ⟨running, hadd, hfold⟩ := bind_eq_ok.1 (show opening.add posting.direction posting.amount >>=
        (fun c => c.addAll ((sites.filterMap j.resolveEntry).map Prod.snd)) = .ok b from h)
      obtain ⟨lines, hlines, hrun, hclosing, hmoves⟩ := ih hfold
      let line : StatementLine P :=
        ⟨site.index, ⟨entry.id, site.posting⟩, entry.bookingDate, posting.direction, posting.amount, running, entry.kind⟩
      refine ⟨line :: lines, ?_, running_cons hadd hrun, ?_, ?_⟩
      · rw [statementLines, hr]
        exact bind_eq_ok.2 ⟨running, hadd, bind_eq_ok.2 ⟨lines, hlines, rfl⟩⟩
      · rw [← hclosing]
        unfold closingOf
        cases lines with
        | nil => rfl
        | cons l ls =>
          rw [List.getLast?_cons_cons]
          obtain ⟨last, hlast⟩ : ∃ last, (l :: ls).getLast? = some last := ⟨_, List.getLast?_eq_some_getLast (by simp)⟩
          rw [hlast]
          rfl
      · rw [List.map_cons, List.map_cons, hmoves]

/-- A statement is there, and closes with the row of the key. -/
theorem Kept.statement_spec {j : Journal H P} (h : j.Kept) (key : BalanceKey) : ∃ lines,
    j.statement key = .ok lines ∧ Running .zero lines ∧ closingOf .zero lines = j.balances.getOrZero key ∧
      lines.map (fun l => (l.direction, l.amount)) =
        ((postingsOf j.entries).filter (·.key = key)).map fun p => (p.direction, p.amount) := by
  have hfold : Balance.zero.addAll ((((j.sites.get? key).getD []).filterMap j.resolveEntry).map Prod.snd) =
      .ok (j.balances.getOrZero key) := by
    rw [h.resolved, map_snd_movesOn]
    exact h.foldOf_eq key
  obtain ⟨lines, hlines, hrun, hclosing, hall⟩ := j.statementLines_spec hfold
  rw [h.resolved, map_snd_movesOn] at hall
  exact ⟨lines, hlines, hrun, hclosing, hall⟩

variable [DecidableEq H]

/-- **Every read of a key agrees.** Now, at a size of the log and by a date. -/
theorem reads_agree {ledger : LedgerId} {j : Journal H P} (hj : (sealedOperations ledger).Reachable j)
    (key : BalanceKey) (size : Nat) (stop : Date) :
    (∃ b, foldOf j.entries key = .ok b ∧ j.balance key none = .ok b ∧
      (∃ tb, j.trialBalance none = .ok tb ∧ tb.getOrZero key = b) ∧
      ∃ lines, j.statement key = .ok lines ∧ Running .zero lines ∧ closingOf .zero lines = b ∧
        lines.map (fun l => (l.direction, l.amount)) =
          ((postingsOf j.entries).filter (·.key = key)).map fun p => (p.direction, p.amount)) ∧
    (∃ b, foldOf (j.entries.take size) key = .ok b ∧ j.balance key (some size) = .ok b ∧
      ∃ tb, j.trialBalance (some size) = .ok tb ∧ tb.getOrZero key = b) ∧
    (∃ b, foldOf (through stop j.entries) key = .ok b ∧ j.balanceOnDate key stop = .ok b ∧
      ∃ tb, j.trialBalanceThroughDate stop = .ok tb ∧ tb.getOrZero key = b) := by
  have h := kept_of_reachable hj
  have hnow := h.foldOf_eq key
  refine ⟨⟨_, hnow, rfl, ⟨_, rfl, rfl⟩, ?_⟩, ?_, ?_⟩
  · exact h.statement_spec key
  · by_cases hsize : j.entries.length ≤ size
    · have hall : j.entries.take size = j.entries := List.take_of_length_le hsize
      refine ⟨_, by rw [hall]; exact hnow, ?_, _, if_pos hsize, rfl⟩
      rw [h.balance_eq, hall]
      exact hnow
    · obtain ⟨tb, htb, hfold⟩ := h.part_ok (List.take_sublist size j.entries)
      exact ⟨_, hfold key, (h.balance_eq key size).trans (hfold key), tb, (if_neg hsize).trans htb, rfl⟩
  · obtain ⟨tb, htb, hfold⟩ := h.part_ok (List.filter_sublist : (through stop j.entries).Sublist j.entries)
    exact ⟨_, hfold key, (h.balanceOnDate_eq key stop).trans (hfold key), tb, htb, rfl⟩

set_option maxRecDepth 10000 in
/-- Not vacuous: every read of the cash account shows the sale of March. -/
theorem marchSold_reads : ∃ b, marchSold.balance ⟨cashId, .eur, .settled⟩ none = .ok b ∧
    marchSold.balance ⟨cashId, .eur, .settled⟩ (some 1) = .ok b ∧
    marchSold.balanceOnDate ⟨cashId, .eur, .settled⟩ march.end = .ok b ∧
    (∃ lines, marchSold.statement ⟨cashId, .eur, .settled⟩ = .ok lines ∧ closingOf .zero lines = b) ∧ b.side .debit = 1000 := by
  obtain ⟨⟨b, hfold, hnow, -, lines, hlines, -, hclosing, -⟩, ⟨b₁, hfold₁, hsize, -⟩, b₂, hfold₂, hdate, -⟩ :=
    reads_agree reachable_marchSold ⟨cashId, .eur, .settled⟩ 1 march.end
  have htake : marchSold.entries.take 1 = marchSold.entries := by decide
  have hthrough : through march.end marchSold.entries = marchSold.entries := by decide
  have hdebit : (foldOf marchSold.entries ⟨cashId, .eur, .settled⟩).toOption.map (·.side .debit) = some 1000 := by decide
  rw [htake, hfold] at hfold₁
  rw [hthrough, hfold] at hfold₂
  cases hfold₁
  cases hfold₂
  rw [hfold] at hdebit
  exact ⟨b, hnow, hsize, hdate, ⟨lines, hlines, hclosing⟩, Option.some.inj hdebit⟩

end Journal

end DoubleEntry.L3
