import DoubleEntry.L3Ledger.Representation

/-!
# Runs of the clearing register

Calls of `clear` and `reset` over postings with positive amounts. What has been
applied to a posting is what the clearings that were not reset apply to it, and no
more than its amount (`Consistent`). So a reset never fails halfway, and leaves what
there would be without the clearing: for every clearing that was not reset there is
a run that reaches the same events less that one (`Skips`), and its applied amounts
are those after the reset (`clearings_of_reachable`). The register of a journal is such
a run over the postings on file (`clearings_reachable`).

**Assumptions.** The postings that references resolve to have positive amounts. In a journal
they are those of sealed entries.

**Results.**
* `clear_mono`: a clearing that is accepted is accepted where less is applied.
* `reset_ok`: a clearing that was not reset can be.
* `clearings_of_reachable`: conservation, bounds, one key a clearing, and a reset takes its
  clearing out of history.
* `clearings_consistent`: so it is for the register of any journal of sealed entries.
-/
namespace DoubleEntry.L3

open DoubleEntry.Core DoubleEntry.L1

variable {P : Scale}

/-- mirrors src/clearing.rs:174-180 -/
def Clearing.key (c : Clearing P) : BalanceKey := ⟨c.account, c.currency, c.layer⟩

/-! ## Applications -/

/-- What items apply to a posting. -/
def amountIn (items : List (ClearedItem P)) (ref : PostingRef) : Int :=
  ((items.filter (·.posting = ref)).map (·.applied.minor)).sum

theorem amountIn_cons (item : ClearedItem P) (items : List (ClearedItem P)) (ref : PostingRef) :
    amountIn (item :: items) ref = (if item.posting = ref then item.applied.minor else 0) + amountIn items ref := by
  unfold amountIn
  by_cases h : item.posting = ref <;> simp [h]

theorem amountIn_of_not_mem {items : List (ClearedItem P)} {ref : PostingRef} (h : ref ∉ items.map (·.posting)) :
    amountIn items ref = 0 := by
  have hnone : items.filter (·.posting = ref) = [] :=
    List.filter_eq_nil_iff.2 fun item hi he => h (List.mem_map.2 ⟨item, hi, of_decide_eq_true he⟩)
  unfold amountIn
  rw [hnone]
  rfl

theorem amountIn_of_mem {items : List (ClearedItem P)} (hn : (items.map (·.posting)).Nodup) {item : ClearedItem P}
    (h : item ∈ items) : amountIn items item.posting = item.applied.minor := by
  induction items with
  | nil => cases h
  | cons x items ih =>
    rw [List.map_cons, List.nodup_cons] at hn
    rw [amountIn_cons]
    rcases List.mem_cons.1 h with rfl | h
    · rw [if_pos rfl, amountIn_of_not_mem hn.1, add_zero]
    · have hne : x.posting ≠ item.posting := fun e => hn.1 (e ▸ List.mem_map_of_mem h)
      rw [if_neg hne, ih hn.2 h, zero_add]

theorem amountIn_nonneg {items : List (ClearedItem P)} (h : ∀ item ∈ items, 0 < item.applied.minor) (ref : PostingRef) :
    0 ≤ amountIn items ref := by
  refine List.sum_nonneg fun n hn => ?_
  obtain ⟨item, hi, rfl⟩ := List.mem_map.1 hn
  exact (h item (List.mem_filter.1 hi).1).le

/-- What items apply on one side. -/
def sideOf (lookup : PostingRef → Option (Posting P)) (d : Direction) (items : List (ClearedItem P)) : Int :=
  ((items.filter fun item => (lookup item.posting).any fun p => p.direction = d).map (·.applied.minor)).sum

theorem sideOf_cons {lookup : PostingRef → Option (Posting P)} {item : ClearedItem P} {p : Posting P}
    (h : lookup item.posting = some p) (d : Direction) (items : List (ClearedItem P)) :
    sideOf lookup d (item :: items) = (if p.direction = d then item.applied.minor else 0) + sideOf lookup d items := by
  unfold sideOf
  by_cases hd : p.direction = d <;> simp [h, hd]

theorem sideOf_congr {lookup lookup' : PostingRef → Option (Posting P)} {items : List (ClearedItem P)}
    (h : ∀ item ∈ items, lookup item.posting = lookup' item.posting) (d : Direction) :
    sideOf lookup d items = sideOf lookup' d items := by
  unfold sideOf
  rw [List.filter_congr fun item hi => by rw [h item hi]]

/-- What clearings apply to a posting. -/
def appliedOver (cs : List (Clearing P)) (ref : PostingRef) : Int := (cs.map fun c => amountIn c.items ref).sum

theorem appliedOver_append (cs cs' : List (Clearing P)) (ref : PostingRef) :
    appliedOver (cs ++ cs') ref = appliedOver cs ref + appliedOver cs' ref := by
  simp [appliedOver]

theorem appliedOver_nonneg {cs : List (Clearing P)} (h : ∀ c ∈ cs, ∀ item ∈ c.items, 0 < item.applied.minor)
    (ref : PostingRef) : 0 ≤ appliedOver cs ref := by
  refine List.sum_nonneg fun n hn => ?_
  obtain ⟨c, hc, rfl⟩ := List.mem_map.1 hn
  exact amountIn_nonneg (h c hc) ref

theorem appliedOver_filter_le {cs : List (Clearing P)} (h : ∀ c ∈ cs, ∀ item ∈ c.items, 0 < item.applied.minor)
    (keep : Clearing P → Bool) (ref : PostingRef) : appliedOver (cs.filter keep) ref ≤ appliedOver cs ref := by
  refine (List.filter_sublist.map _).sum_le_sum fun n hn => ?_
  obtain ⟨c, hc, rfl⟩ := List.mem_map.1 hn
  exact amountIn_nonneg (h c hc) ref

theorem appliedOver_without {cs : List (Clearing P)} (hn : (cs.map (·.id)).Nodup) {c : Clearing P} (hc : c ∈ cs)
    (ref : PostingRef) :
    appliedOver cs ref = amountIn c.items ref + appliedOver (cs.filter fun d => d.id ≠ c.id) ref := by
  induction cs with
  | nil => cases hc
  | cons d cs ih =>
    rw [List.map_cons, List.nodup_cons] at hn
    have hcons : ∀ l : List (Clearing P), appliedOver (d :: l) ref = amountIn d.items ref + appliedOver l ref := fun _ => rfl
    rcases List.mem_cons.1 hc with rfl | hc
    · have hall : cs.filter (fun d => d.id ≠ c.id) = cs := by
        refine List.filter_eq_self.2 fun d hd => decide_eq_true fun e => hn.1 ?_
        exact e ▸ List.mem_map_of_mem hd
      rw [hcons, List.filter_cons_of_neg (by simp), hall]
    · have hne : d.id ≠ c.id := fun e => hn.1 (e ▸ List.mem_map_of_mem hc)
      rw [hcons, List.filter_cons_of_pos (by simpa using hne), hcons, ih hn.2 hc]
      omega

namespace ClearingRegister

/-! ## What the calls do -/

/-- mirrors src/clearing.rs:388-398 -/
def residualOf (r : ClearingRegister P) (posting : PostingRef) (lookup : PostingRef → Option (Posting P)) :
    Except ClearingError (Amount P) :=
  match lookup posting with
  | none => .error (.unknownPosting posting)
  | some found => (found.amount.checkedSub (r.appliedTo posting)).mapError .money

theorem checkScope_eq_ok {c : Clearing P} {item : ClearedItem P} {p : Posting P} {u : Unit} :
    checkScope c item p = .ok u ↔ p.key = c.key := by
  have hkey : p.key = c.key ↔ p.account = c.account ∧ p.currency = c.currency ∧ p.layer = c.layer := by
    simp [Posting.key, Clearing.key]
  rw [hkey]
  unfold checkScope
  by_cases ha : p.account = c.account
  · by_cases hc : p.currency = c.currency
    · by_cases hl : p.layer = c.layer <;> simp [ha, hc, hl]
    · simp [ha, hc]
  · simp [ha]

theorem checkItem_eq_ok {r : ClearingRegister P} {lookup : PostingRef → Option (Posting P)} {c : Clearing P}
    {seen : List PostingRef} {b : Balance P} {item : ClearedItem P} {st : List PostingRef × Balance P} :
    r.checkItem lookup c (seen, b) item = .ok st ↔ item.posting ∉ seen ∧ 0 < item.applied.minor ∧
      ∃ p residual b', lookup item.posting = some p ∧ p.key = c.key ∧
        p.amount.checkedSub (r.appliedTo item.posting) = .ok residual ∧ item.applied ≤ residual ∧
        b.add p.direction item.applied = .ok b' ∧ st = (item.posting :: seen, b') := by
  unfold checkItem
  by_cases hseen : item.posting ∈ seen
  · simp [hseen]
  by_cases hpos : 0 < item.applied.minor
  · have hpositive : item.applied.isPositive = true := decide_eq_true hpos
    simp only [hseen, if_false, hpositive, Bool.true_eq_false, not_false_eq_true, hpos, true_and]
    cases hp : lookup item.posting with
    | none => simp
    | some p =>
      simp only [bind_eq_ok, checkScope_eq_ok, mapError_eq_ok, Option.some.injEq]
      constructor
      · intro h
        obtain ⟨-, hkey, residual, hres, h⟩ := h
        split at h
        · cases h
        · rename_i hle
          obtain ⟨b', hb, hst⟩ := bind_eq_ok.1 h
          cases hst
          exact ⟨p, residual, b', rfl, hkey, hres, not_lt.1 hle, mapError_eq_ok.1 hb, rfl⟩
      · intro h
        obtain ⟨_, residual, b', rfl, hkey, hres, hle, hb, rfl⟩ := h
        refine ⟨(), hkey, residual, hres, ?_⟩
        rw [if_neg (not_lt.2 hle)]
        exact bind_eq_ok.2 ⟨b', mapError_eq_ok.2 hb, rfl⟩
  · have hpositive : item.applied.isPositive = false := decide_eq_false hpos
    simp [hseen, hpositive, hpos]

/-- What an item was checked for. -/
structure ItemOk (r : ClearingRegister P) (lookup : PostingRef → Option (Posting P)) (c : Clearing P)
    (item : ClearedItem P) : Prop where
  positive : 0 < item.applied.minor
  posting : ∃ p, lookup item.posting = some p ∧ p.key = c.key ∧
    (r.appliedTo item.posting).minor + item.applied.minor ≤ p.amount.minor

/-- Items that pass one after another. -/
structure ItemsOk (r : ClearingRegister P) (lookup : PostingRef → Option (Posting P)) (c : Clearing P)
    (items : List (ClearedItem P)) (seen : List PostingRef) (b b' : Balance P) : Prop where
  nodup : (items.map (·.posting)).Nodup
  unseen : ∀ item ∈ items, item.posting ∉ seen
  each : ∀ item ∈ items, r.ItemOk lookup c item
  sides : ∀ d, b'.side d = b.side d + sideOf lookup d items

theorem checkItems_spec {r : ClearingRegister P} {lookup : PostingRef → Option (Posting P)} {c : Clearing P}
    {items : List (ClearedItem P)} {seen seen' : List PostingRef} {b b' : Balance P}
    (h : items.foldlM (r.checkItem lookup c) (seen, b) = .ok (seen', b')) : r.ItemsOk lookup c items seen b b' := by
  induction items generalizing seen b with
  | nil =>
    cases h
    exact ⟨.nil, fun _ hi => absurd hi List.not_mem_nil, fun _ hi => absurd hi List.not_mem_nil, fun d => by simp [sideOf]⟩
  | cons item items ih =>
    rw [List.foldlM_cons] at h
    obtain ⟨st, hitem, hrest⟩ := bind_eq_ok.1 h
    obtain ⟨hseen, hpos, p, residual, b₁, hp, hkey, hres, hle, hb, rfl⟩ := checkItem_eq_ok.1 hitem
    have hr := ih hrest
    have hle : item.applied.minor ≤ p.amount.minor - (r.appliedTo item.posting).minor :=
      (Amount.le_iff.1 hle).trans_eq (Amount.checkedSub_eq_ok.1 hres)
    refine ⟨?_, ?_, ?_, fun d => ?_⟩
    · rw [List.map_cons, List.nodup_cons]
      refine ⟨fun hmem => ?_, hr.nodup⟩
      obtain ⟨x, hx, he⟩ := List.mem_map.1 hmem
      exact hr.unseen x hx (he ▸ List.mem_cons_self)
    · intro x hx
      rcases List.mem_cons.1 hx with rfl | hx
      · exact hseen
      · exact fun hs => hr.unseen x hx (List.mem_cons_of_mem _ hs)
    · intro x hx
      rcases List.mem_cons.1 hx with rfl | hx
      · exact ⟨hpos, p, hp, hkey, by omega⟩
      · exact hr.each x hx
    · rw [hr.sides d, Balance.side_add hb d, sideOf_cons hp d, add_assoc]

theorem checkItems_seen {r : ClearingRegister P} {lookup : PostingRef → Option (Posting P)} {c : Clearing P}
    {items : List (ClearedItem P)} {seen seen' : List PostingRef} {b b' : Balance P}
    (h : items.foldlM (r.checkItem lookup c) (seen, b) = .ok (seen', b')) :
    seen' = (items.map (·.posting)).reverse ++ seen := by
  induction items generalizing seen b with
  | nil =>
    cases h
    rfl
  | cons item items ih =>
    rw [List.foldlM_cons] at h
    obtain ⟨st, hitem, hrest⟩ := bind_eq_ok.1 h
    obtain ⟨-, -, p, residual, b₁, -, -, -, -, -, rfl⟩ := checkItem_eq_ok.1 hitem
    rw [ih hrest]
    simp

/-- Items that pass also pass where less is applied and more postings are found. -/
theorem checkItems_mono {r s : ClearingRegister P} {lookup lookup' : PostingRef → Option (Posting P)} {c : Clearing P}
    (hmore : ∀ ref p, lookup ref = some p → lookup' ref = some p)
    (hle : ∀ ref, 0 ≤ (s.appliedTo ref).minor ∧ (s.appliedTo ref).minor ≤ (r.appliedTo ref).minor)
    {items : List (ClearedItem P)} {st st' : List PostingRef × Balance P}
    (h : items.foldlM (r.checkItem lookup c) st = .ok st') : items.foldlM (s.checkItem lookup' c) st = .ok st' := by
  induction items generalizing st with
  | nil => exact h
  | cons item items ih =>
    rw [List.foldlM_cons] at h ⊢
    obtain ⟨st₁, hitem, hrest⟩ := bind_eq_ok.1 h
    obtain ⟨hseen, hpos, p, residual, b', hp, hkey, hres, hle', hb, rfl⟩ := checkItem_eq_ok.1 hitem
    obtain ⟨hnonneg, hless⟩ := hle item.posting
    have hminor := Amount.checkedSub_eq_ok.1 hres
    have hfits : FitsI64 (p.amount.minor - (s.appliedTo item.posting).minor) := by
      have hlow := residual.fits.1
      have hhigh := p.amount.fits.2
      exact ⟨by omega, by omega⟩
    have hroom : item.applied ≤ (⟨_, hfits⟩ : Amount P) := by
      have hitem := Amount.le_iff.1 hle'
      rw [Amount.le_iff]
      show item.applied.minor ≤ p.amount.minor - (s.appliedTo item.posting).minor
      omega
    refine bind_eq_ok.2 ⟨_, checkItem_eq_ok.2 ⟨hseen, hpos, p, ⟨_, hfits⟩, b', hmore _ p hp, hkey, ?_, hroom, hb, rfl⟩, ih hrest⟩
    exact Amount.checkedSub_eq_ok.2 rfl

theorem clear_eq_ok {r r' : ClearingRegister P} {c : Clearing P} {lookup : PostingRef → Option (Posting P)} :
    r.clear c lookup = .ok r' ↔ r.byId.get? c.id = none ∧ 2 ≤ c.items.length ∧ ∃ seen sides applied,
      c.items.foldlM (r.checkItem lookup c) ([], .zero) = .ok (seen, sides) ∧ sides.isBalanced = true ∧
      r.restage Amount.checkedAdd c.items = .ok applied ∧
      r' = { r with
        applied := applied
        byId := r.byId.insert c.id r.events.length
        events := r.events ++ [.cleared c] } := by
  unfold clear
  cases hid : r.byId.get? c.id with
  | some i => simp [OrdMap.contains, hid]
  | none =>
    by_cases hlen : c.items.length < 2
    · simp [OrdMap.contains, hid, hlen]
    · have htwo : 2 ≤ c.items.length := not_lt.1 hlen
      simp only [OrdMap.contains, hid, Option.isSome_none, Bool.false_eq_true, if_false, hlen, htwo, true_and, bind_eq_ok,
        Prod.exists]
      constructor
      · intro h
        obtain ⟨seen, sides, hfold, h⟩ := h
        split at h
        · cases h
        · rename_i hbal
          obtain ⟨applied, happlied, hr⟩ := bind_eq_ok.1 h
          cases hr
          exact ⟨seen, sides, applied, hfold, by simpa using hbal, happlied, rfl⟩
      · intro h
        obtain ⟨seen, sides, applied, hfold, hbal, happlied, rfl⟩ := h
        refine ⟨seen, sides, hfold, ?_⟩
        rw [if_neg (by simp [hbal])]
        exact bind_eq_ok.2 ⟨applied, happlied, rfl⟩

theorem reset_eq_ok {r r' : ClearingRegister P} {id : ClearingId} {on : Date} :
    r.reset id on = .ok r' ↔ ∃ i c applied, r.byId.get? id = some i ∧ r.resetOn.get? id = none ∧
      r.events[i]? = some (.cleared c) ∧ r.restage Amount.checkedSub c.items = .ok applied ∧
      r' = { r with
        applied := applied
        resetOn := r.resetOn.insert id on
        events := r.events ++ [.reset id on] } := by
  unfold reset
  cases hid : r.byId.get? id with
  | none => simp
  | some i =>
    cases hreset : r.resetOn.get? id with
    | some on' => simp [OrdMap.contains, hreset]
    | none =>
      simp only [OrdMap.contains, hreset, Option.isSome_none, Bool.false_eq_true, if_false, Option.some.injEq, true_and]
      cases he : r.events[i]? with
      | none => simp [he]
      | some event =>
        cases event with
        | reset _ _ => simp [he]
        | cleared c =>
          simp only [bind_eq_ok]
          constructor
          · intro h
            obtain ⟨applied, happlied, hr⟩ := h
            cases hr
            exact ⟨i, c, applied, rfl, he, happlied, rfl⟩
          · intro h
            obtain ⟨_, c', applied, rfl, he', happlied, rfl⟩ := h
            rw [he] at he'
            cases he'
            exact ⟨applied, happlied, rfl⟩

/-! ## Restaging -/

/-- What a loop over items stages, once stored. -/
theorem foldl_staged {f : ClearedItem P → Except MoneyError (Amount P)} {items : List (ClearedItem P)}
    {staged : List (PostingRef × Amount P)} {m : OrdMap PostingRef (Amount P)}
    (h : items.mapM (fun item => (f item).map fun a => (item.posting, a)) = .ok staged)
    (hn : (items.map (·.posting)).Nodup) (ref : PostingRef) :
    (∀ item ∈ items, item.posting = ref → ∃ a, f item = .ok a ∧
      (staged.foldl (fun m e => m.insert e.1 e.2) m).get? ref = some a) ∧
    (ref ∉ items.map (·.posting) → (staged.foldl (fun m e => m.insert e.1 e.2) m).get? ref = m.get? ref) := by
  induction items generalizing staged m with
  | nil =>
    cases h
    exact ⟨fun _ hi => absurd hi List.not_mem_nil, fun _ => rfl⟩
  | cons item items ih =>
    rw [List.mapM_cons] at h
    obtain ⟨e, he, h⟩ := bind_eq_ok.1 h
    obtain ⟨rest, hrest, hstaged⟩ := bind_eq_ok.1 h
    cases hstaged
    obtain ⟨a, ha, rfl⟩ := map_eq_ok.1 he
    rw [List.map_cons, List.nodup_cons] at hn
    obtain ⟨hmem, hother⟩ := @ih rest (m.insert item.posting a) hrest hn.2
    rw [List.foldl_cons]
    constructor
    · intro x hx hxref
      rcases List.mem_cons.1 hx with rfl | hx
      · subst hxref
        exact ⟨a, ha, (hother hn.1).trans OrdMap.get?_insert_self⟩
      · exact hmem x hx hxref
    · intro hnot
      rw [List.map_cons, List.mem_cons, not_or] at hnot
      exact (hother hnot.2).trans (OrdMap.get?_insert_ne fun e => hnot.1 e.symm)

/-- Every applied amount moves by what the items apply. -/
theorem restage_spec {r r' : ClearingRegister P} (op : Amount P → Amount P → Except MoneyError (Amount P)) {sign : Int}
    (hop : ∀ {a b c : Amount P}, op a b = .ok c → c.minor = a.minor + sign * b.minor) {items : List (ClearedItem P)}
    (hn : (items.map (·.posting)).Nodup) (h : r.restage op items = .ok r'.applied) (ref : PostingRef) :
    (r'.appliedTo ref).minor = (r.appliedTo ref).minor + sign * amountIn items ref := by
  obtain ⟨staged, hstaged, hfold⟩ := map_eq_ok.1 h
  obtain ⟨hmem, hother⟩ := foldl_staged (m := r.applied) (mapError_eq_ok.1 hstaged) hn ref
  rw [hfold] at hmem hother
  by_cases href : ref ∈ items.map (·.posting)
  · obtain ⟨item, hi, rfl⟩ := List.mem_map.1 href
    obtain ⟨a, ha, hget⟩ := hmem item hi rfl
    rw [amountIn_of_mem hn hi, ← hop ha, appliedTo, hget, Option.getD_some]
  · rw [amountIn_of_not_mem href, appliedTo, hother href, mul_zero, add_zero, appliedTo]

theorem restage_ok {r : ClearingRegister P} {op : Amount P → Amount P → Except MoneyError (Amount P)}
    {items : List (ClearedItem P)} (h : ∀ item ∈ items, ∃ a, op (r.appliedTo item.posting) item.applied = .ok a) :
    ∃ applied, r.restage op items = .ok applied := by
  have hall : ∃ staged, items.mapM (fun item => (op (r.appliedTo item.posting) item.applied).map fun a =>
      (item.posting, a)) = .ok staged := by
    refine mapM_isOk fun item hi => ?_
    obtain ⟨a, ha⟩ := h item hi
    exact ⟨_, map_eq_ok.2 ⟨a, ha, rfl⟩⟩
  obtain ⟨staged, hstaged⟩ := hall
  exact ⟨_, map_eq_ok.2 ⟨staged, mapError_eq_ok.2 hstaged, rfl⟩⟩

theorem restage_checked {r : ClearingRegister P} {lookup : PostingRef → Option (Posting P)} {c : Clearing P}
    (hnonneg : ∀ ref, 0 ≤ (r.appliedTo ref).minor) {items : List (ClearedItem P)} {seen seen' : List PostingRef}
    {b b' : Balance P} (h : items.foldlM (r.checkItem lookup c) (seen, b) = .ok (seen', b')) :
    ∃ applied, r.restage Amount.checkedAdd items = .ok applied := by
  refine restage_ok fun item hi => ?_
  obtain ⟨hpositive, p, -, -, hle⟩ := (checkItems_spec h).each item hi
  have happlied := hnonneg item.posting
  have hadd : FitsI64 ((r.appliedTo item.posting).minor + item.applied.minor) := by
    have hhigh := p.amount.fits.2
    have hmin : i64Min ≤ 0 := by decide
    exact ⟨by omega, by omega⟩
  exact ⟨⟨_, hadd⟩, Amount.checkedAdd_eq_ok.2 rfl⟩

/-- A clearing that is accepted also is where it is not on file, less is applied and more postings are found. -/
theorem clear_mono {r s r' : ClearingRegister P} {lookup lookup' : PostingRef → Option (Posting P)} {c : Clearing P}
    (hmore : ∀ ref p, lookup ref = some p → lookup' ref = some p)
    (hle : ∀ ref, 0 ≤ (s.appliedTo ref).minor ∧ (s.appliedTo ref).minor ≤ (r.appliedTo ref).minor)
    (hfresh : s.byId.get? c.id = none) (h : r.clear c lookup = .ok r') : ∃ s', s.clear c lookup' = .ok s' := by
  obtain ⟨-, hlen, seen, sides, -, hfold, hbal, -, -⟩ := clear_eq_ok.1 h
  have hsame := checkItems_mono hmore hle hfold
  obtain ⟨applied, happlied⟩ := restage_checked (fun ref => (hle ref).1) hsame
  exact ⟨_, clear_eq_ok.2 ⟨hfresh, hlen, seen, sides, applied, hsame, hbal, happlied, rfl⟩⟩

/-! ## The invariant -/

def cleared (events : List (ClearingEvent P)) : List (Clearing P) := events.filterMap fun
  | .cleared c => some c
  | .reset _ _ => none

def active (r : ClearingRegister P) : List (Clearing P) := (cleared r.events).filter fun c => !r.resetOn.contains c.id

/-- A clearing of postings of one account, currency and layer, whose sides agree. -/
structure Proper (postings : PostingRef → Option (Posting P)) (c : Clearing P) : Prop where
  nodup : (c.items.map (·.posting)).Nodup
  positive : ∀ item ∈ c.items, 0 < item.applied.minor
  scope : ∀ item ∈ c.items, ∃ p, postings item.posting = some p ∧ p.key = c.key
  sides : sideOf postings .debit c.items = sideOf postings .credit c.items

/-- The maps are those of the events, and the applied amounts those of the clearings
that were not reset. -/
structure Consistent (postings : PostingRef → Option (Posting P)) (r : ClearingRegister P) : Prop where
  byId : ∀ id i, r.byId.get? id = some i ↔ ∃ c, r.events[i]? = some (.cleared c) ∧ c.id = id
  ids : ((cleared r.events).map (·.id)).Nodup
  resets : ∀ id, (r.resetOn.get? id).isSome → (r.byId.get? id).isSome
  proper : ∀ c ∈ cleared r.events, Proper postings c
  applied : ∀ ref, (r.appliedTo ref).minor = appliedOver r.active ref
  bounded : ∀ ref p, postings ref = some p → (r.appliedTo ref).minor ≤ p.amount.minor

variable {postings : PostingRef → Option (Posting P)}

theorem mem_cleared {events : List (ClearingEvent P)} {c : Clearing P} :
    c ∈ cleared events ↔ .cleared c ∈ events := by
  unfold cleared
  rw [List.mem_filterMap]
  constructor
  · intro h
    obtain ⟨e, he, hc⟩ := h
    cases e with
    | cleared d =>
      cases hc
      exact he
    | reset => cases hc
  · exact fun h => ⟨_, h, rfl⟩

theorem cleared_append (l l' : List (ClearingEvent P)) : cleared (l ++ l') = cleared l ++ cleared l' :=
  List.filterMap_append

namespace Consistent

variable {r : ClearingRegister P}

theorem recorded_iff (h : Consistent postings r) {id : ClearingId} :
    (r.byId.get? id).isSome ↔ ∃ c ∈ cleared r.events, c.id = id := by
  rw [Option.isSome_iff_exists]
  constructor
  · intro hi
    obtain ⟨i, hi⟩ := hi
    obtain ⟨c, hc, hid⟩ := (h.byId id i).1 hi
    exact ⟨c, mem_cleared.2 (List.mem_of_getElem? hc), hid⟩
  · intro hc
    obtain ⟨c, hc, hid⟩ := hc
    obtain ⟨i, hi⟩ := List.mem_iff_getElem?.1 (mem_cleared.1 hc)
    exact ⟨i, (h.byId id i).2 ⟨c, hi, hid⟩⟩

theorem mem_active (h : Consistent postings r) {c : Clearing P} (hc : c ∈ r.active) :
    c ∈ cleared r.events ∧ Proper postings c :=
  have hmem := (List.mem_filter.1 hc).1
  ⟨hmem, h.proper c hmem⟩

theorem active_ids (h : Consistent postings r) : (r.active.map (·.id)).Nodup :=
  (List.filter_sublist.map _).nodup h.ids

theorem applied_nonneg (h : Consistent postings r) (ref : PostingRef) : 0 ≤ (r.appliedTo ref).minor := by
  rw [h.applied]
  exact appliedOver_nonneg (fun c hc => (h.mem_active hc).2.positive) ref

theorem applied_ge (h : Consistent postings r) {c : Clearing P} (hc : c ∈ r.active) (ref : PostingRef) :
    amountIn c.items ref ≤ (r.appliedTo ref).minor := by
  have hothers : ∀ d ∈ r.active.filter fun d => d.id ≠ c.id, ∀ item ∈ d.items, 0 < item.applied.minor := fun d hd =>
    (h.mem_active (List.mem_filter.1 hd).1).2.positive
  have hrest := appliedOver_nonneg hothers ref
  rw [h.applied, appliedOver_without h.active_ids hc]
  omega

/-- A clearing on file that was not reset can be. -/
theorem reset_ok (h : Consistent postings r) {id : ClearingId} (hrec : (r.byId.get? id).isSome)
    (hreset : r.resetOn.get? id = none) (on : Date) : ∃ r', r.reset id on = .ok r' := by
  obtain ⟨i, hi⟩ := Option.isSome_iff_exists.1 hrec
  obtain ⟨c, hc, rfl⟩ := (h.byId id i).1 hi
  have hmem : c ∈ cleared r.events := mem_cleared.2 (List.mem_of_getElem? hc)
  have hactive : c ∈ r.active := List.mem_filter.2 ⟨hmem, by simp [OrdMap.contains, hreset]⟩
  have hproper := h.proper c hmem
  obtain ⟨applied, happlied⟩ : ∃ applied, r.restage Amount.checkedSub c.items = .ok applied := by
    refine restage_ok fun item hitem => ?_
    have hge := h.applied_ge hactive item.posting
    have hpos := hproper.positive item hitem
    rw [amountIn_of_mem hproper.nodup hitem] at hge
    have hfits : FitsI64 ((r.appliedTo item.posting).minor - item.applied.minor) := by
      have hhigh := (r.appliedTo item.posting).fits.2
      have hmin : i64Min ≤ 0 := by decide
      exact ⟨by omega, by omega⟩
    exact ⟨⟨_, hfits⟩, Amount.checkedSub_eq_ok.2 rfl⟩
  exact ⟨_, reset_eq_ok.2 ⟨i, c, applied, hi, hreset, hc, happlied, rfl⟩⟩

end Consistent

/-! ## One call -/

theorem consistent_new (hpos : ∀ ref p, postings ref = some p → 0 < p.amount.minor) :
    Consistent postings (new : ClearingRegister P) where
  byId id i := by simp [new]
  ids := .nil
  resets id h := by simp [new] at h
  proper c hc := by simp [new, cleared] at hc
  applied ref := by simp [new, appliedTo, active, cleared, appliedOver, Amount.zero]
  bounded ref p hp := (hpos ref p hp).le

theorem active_clear {r r' : ClearingRegister P} {c : Clearing P} {lookup : PostingRef → Option (Posting P)}
    (h : Consistent postings r) (hr : r.clear c lookup = .ok r') : r'.active = r.active ++ [c] := by
  obtain ⟨hid, -, seen, sides, applied, -, -, -, rfl⟩ := clear_eq_ok.1 hr
  have hunreset : r.resetOn.get? c.id = none := by
    by_contra hne
    have hrec := h.resets c.id (Option.isSome_iff_ne_none.2 hne)
    rw [hid] at hrec
    cases hrec
  unfold active
  rw [cleared_append, List.filter_append]
  congr 1
  simp [cleared, OrdMap.contains, hunreset]

theorem active_reset {r r' : ClearingRegister P} {id : ClearingId} {on : Date} (hr : r.reset id on = .ok r') :
    r'.active = r.active.filter fun c => c.id ≠ id := by
  obtain ⟨i, c, applied, -, -, -, -, rfl⟩ := reset_eq_ok.1 hr
  unfold active
  rw [cleared_append, List.filter_filter, show cleared [ClearingEvent.reset id on] = ([] : List (Clearing P)) from rfl,
    List.append_nil]
  refine List.filter_congr fun d _ => ?_
  by_cases hd : id = d.id
  · subst hd
    simp [OrdMap.contains]
  · simp [OrdMap.contains, OrdMap.get?_insert_ne hd, Ne.symm hd]

namespace Consistent

variable {r r' : ClearingRegister P}

theorem clear (h : Consistent postings r) {c : Clearing P} {lookup : PostingRef → Option (Posting P)}
    (hlookup : ∀ ref p, lookup ref = some p → postings ref = some p) (hr : r.clear c lookup = .ok r') :
    Consistent postings r' := by
  have hactive := active_clear h hr
  obtain ⟨hid, -, seen, sides, applied, hfold, hbal, happlied, rfl⟩ := clear_eq_ok.1 hr
  have hitems := checkItems_spec hfold
  have hscope : ∀ item ∈ c.items, ∃ p, lookup item.posting = some p ∧ postings item.posting = some p ∧ p.key = c.key ∧
      (r.appliedTo item.posting).minor + item.applied.minor ≤ p.amount.minor := by
    intro item hi
    obtain ⟨-, p, hp, hkey, hle⟩ := hitems.each item hi
    exact ⟨p, hp, hlookup _ p hp, hkey, hle⟩
  have hfresh : ∀ d ∈ cleared r.events, d.id ≠ c.id := fun d hd e => by
    have hrec := h.recorded_iff.2 ⟨d, hd, e⟩
    rw [hid] at hrec
    cases hrec
  have hmoved : ∀ ref, (({ r with
      applied := applied
      byId := r.byId.insert c.id r.events.length
      events := r.events ++ [.cleared c] } : ClearingRegister P).appliedTo ref).minor =
        (r.appliedTo ref).minor + 1 * amountIn c.items ref := by
    refine restage_spec Amount.checkedAdd (fun hop => ?_) hitems.nodup happlied
    rw [one_mul]
    exact Amount.checkedAdd_eq_ok.1 hop
  refine ⟨fun id i => ?_, ?_, fun id hreset => ?_, fun d hd => ?_, fun ref => ?_, fun ref p hp => ?_⟩
  · show (r.byId.insert c.id r.events.length).get? id = some i ↔ _
    rw [OrdMap.get?_insert]
    simp only [getElem?_concat_eq_some, or_and_right, exists_or, ← h.byId id i, ClearingEvent.cleared.injEq]
    by_cases he : c.id = id
    · subst he
      simp [hid, eq_comm]
    · simp [he]
  · rw [cleared_append]
    exact nodup_map_concat h.ids hfresh
  · show ((r.byId.insert c.id r.events.length).get? id).isSome
    rw [OrdMap.get?_insert]
    split
    · rfl
    · exact h.resets id hreset
  · rw [cleared_append] at hd
    rcases List.mem_append.1 hd with hd | hd
    · exact h.proper d hd
    · obtain rfl : d = c := List.mem_singleton.1 hd
      refine ⟨hitems.nodup, fun item hi => (hitems.each item hi).positive, fun item hi => ?_, ?_⟩
      · obtain ⟨p, -, hp, hkey, -⟩ := hscope item hi
        exact ⟨p, hp, hkey⟩
      · have hsame : ∀ item ∈ d.items, lookup item.posting = postings item.posting := fun item hi => by
          obtain ⟨p, hl, hp, -⟩ := hscope item hi
          rw [hl, hp]
        have heq : sides.side .debit = sides.side .credit := congrArg Amount.minor (of_decide_eq_true hbal)
        rw [hitems.sides, hitems.sides, Balance.side_zero, Balance.side_zero, zero_add, zero_add] at heq
        rw [← sideOf_congr hsame, ← sideOf_congr hsame]
        exact heq
  · rw [hactive, appliedOver_append, hmoved, h.applied, one_mul]
    simp [appliedOver]
  · rw [hmoved, one_mul]
    by_cases href : ref ∈ c.items.map (·.posting)
    · obtain ⟨item, hi, rfl⟩ := List.mem_map.1 href
      obtain ⟨p', -, hp', -, hle⟩ := hscope item hi
      obtain rfl : p' = p := Option.some.inj (hp'.symm.trans hp)
      rw [amountIn_of_mem hitems.nodup hi]
      exact hle
    · rw [amountIn_of_not_mem href, add_zero]
      exact h.bounded ref p hp

theorem reset (h : Consistent postings r) {id : ClearingId} {on : Date} (hr : r.reset id on = .ok r') :
    Consistent postings r' := by
  have hactive := active_reset hr
  obtain ⟨i, c, applied, hi, hunreset, hc, happlied, rfl⟩ := reset_eq_ok.1 hr
  have hmem : c ∈ cleared r.events := mem_cleared.2 (List.mem_of_getElem? hc)
  have hproper := h.proper c hmem
  obtain rfl : c.id = id := by
    obtain ⟨d, hd, hid⟩ := (h.byId id i).1 hi
    rw [hc] at hd
    cases hd
    exact hid
  have hin : c ∈ r.active := List.mem_filter.2 ⟨hmem, by simp [OrdMap.contains, hunreset]⟩
  have hmoved : ∀ ref, (({ r with
      applied := applied
      resetOn := r.resetOn.insert c.id on
      events := r.events ++ [.reset c.id on] } : ClearingRegister P).appliedTo ref).minor =
        (r.appliedTo ref).minor + -1 * amountIn c.items ref := by
    refine restage_spec Amount.checkedSub (fun hop => ?_) hproper.nodup happlied
    rw [neg_one_mul, ← sub_eq_add_neg]
    exact Amount.checkedSub_eq_ok.1 hop
  have hevents : cleared (r.events ++ [.reset c.id on]) = cleared r.events := by
    rw [cleared_append]
    exact List.append_nil _
  refine ⟨fun id i => ?_, ?_, fun id hreset => ?_, fun d hd => ?_, fun ref => ?_, fun ref p hp => ?_⟩
  · simp only [getElem?_concat_eq_some, reduceCtorEq, and_false, or_false]
    exact h.byId id i
  · rw [hevents]
    exact h.ids
  · have hreset : ((r.resetOn.insert c.id on).get? id).isSome := hreset
    rw [OrdMap.get?_insert] at hreset
    split at hreset
    · rename_i he
      subst he
      exact h.recorded_iff.2 ⟨c, hmem, rfl⟩
    · exact h.resets id hreset
  · rw [hevents] at hd
    exact h.proper d hd
  · rw [hactive, hmoved, h.applied, appliedOver_without h.active_ids hin]
    omega
  · have hnonneg := amountIn_nonneg hproper.positive ref
    have hle := h.bounded ref p hp
    rw [hmoved]
    omega

end Consistent

/-! ## Runs -/

/-- A call, with what its postings are looked up in. -/
inductive RegisterCall (P : Scale)
  | clear (clearing : Clearing P) (lookup : PostingRef → Option (Posting P))
  | reset (id : ClearingId) (on : Date)

def act (r : ClearingRegister P) : RegisterCall P → Except ClearingError (ClearingRegister P)
  | .clear clearing lookup => r.clear clearing lookup
  | .reset id on => r.reset id on

/-- The register after a call. -/
def after (r : ClearingRegister P) (call : RegisterCall P) : ClearingRegister P := Journal.keep (r.act call) r

/-- The lookup of a call finds postings of the book only, maybe not all of them yet. -/
def Resolves (postings : PostingRef → Option (Posting P)) : RegisterCall P → Prop
  | .clear _ lookup => ∀ ref p, lookup ref = some p → postings ref = some p
  | .reset _ _ => True

/-- Over a book of postings. -/
def registers (postings : PostingRef → Option (Posting P)) : LTS (ClearingRegister P) (RegisterCall P) where
  init r := r = new
  step r call r' := Resolves postings call ∧ r' = r.after call

theorem after_cases (r : ClearingRegister P) (call : RegisterCall P) :
    r.after call = r ∨ r.act call = .ok (r.after call) := Journal.keep_cases _ _

theorem step_of_act {r r' : ClearingRegister P} {call : RegisterCall P} (hcall : Resolves postings call)
    (h : r.act call = .ok r') : (registers postings).step r call r' := by
  refine ⟨hcall, ?_⟩
  rw [after, h]
  rfl

theorem Consistent.act {r r' : ClearingRegister P} (h : Consistent postings r) {call : RegisterCall P}
    (hcall : Resolves postings call) (hr : r.act call = .ok r') : Consistent postings r' := by
  cases call with
  | clear clearing lookup => exact h.clear hcall hr
  | reset id on => exact h.reset hr

theorem consistent_of_reachable (hpos : ∀ ref p, postings ref = some p → 0 < p.amount.minor) {r : ClearingRegister P}
    (hr : (registers postings).Reachable r) : Consistent postings r := by
  refine LTS.Inductive.reachable (T := registers postings) ⟨?_, ?_⟩ hr
  · intro r h
    obtain rfl : r = new := h
    exact consistent_new hpos
  · intro r call r' h st
    obtain ⟨hcall, rfl⟩ := st
    rcases r.after_cases call with hsame | hact
    · rw [hsame]
      exact h
    · exact h.act hcall hact

/-! ## Without one clearing -/

/-- The events less one clearing. -/
def without (id : ClearingId) (events : List (ClearingEvent P)) : List (ClearingEvent P) := events.filter fun
  | .cleared c => c.id ≠ id
  | .reset _ _ => true

theorem without_append (id : ClearingId) (l l' : List (ClearingEvent P)) :
    without id (l ++ l') = without id l ++ without id l' := List.filter_append _ _

theorem cleared_without (id : ClearingId) (events : List (ClearingEvent P)) :
    cleared (without id events) = (cleared events).filter fun c => c.id ≠ id := by
  induction events with
  | nil => rfl
  | cons e events ih =>
    cases e with
    | reset => exact ih
    | cleared c =>
      by_cases hc : c.id = id
      · have hdrop : without id (.cleared c :: events) = without id events := List.filter_cons_of_neg (by simpa using hc)
        have hcons : cleared (.cleared c :: events) = c :: cleared events := rfl
        rw [hdrop, hcons, List.filter_cons_of_neg (by simpa using hc), ih]
      · have hkeep : without id (.cleared c :: events) = .cleared c :: without id events :=
          List.filter_cons_of_pos (by simpa using hc)
        have hcons : ∀ l, cleared (.cleared c :: l) = c :: cleared l := fun _ => rfl
        rw [hkeep, hcons, hcons, List.filter_cons_of_pos (by simpa using hc), ih]

/-- A register that some run reaches with the same events less one clearing. -/
structure Skips (postings : PostingRef → Option (Posting P)) (r : ClearingRegister P) (id : ClearingId)
    (s : ClearingRegister P) : Prop where
  reachable : (registers postings).Reachable s
  events : s.events = without id r.events
  resets : s.resetOn = r.resetOn

namespace Skips

variable {r s : ClearingRegister P} {id : ClearingId}

theorem active (h : Skips postings r id s) : s.active = r.active.filter fun c => c.id ≠ id := by
  unfold ClearingRegister.active
  rw [h.events, h.resets, cleared_without, List.filter_filter, List.filter_filter]
  exact List.filter_congr fun c _ => Bool.and_comm _ _

theorem applied_le (hpos : ∀ ref p, postings ref = some p → 0 < p.amount.minor) (hr : Consistent postings r)
    (h : Skips postings r id s) (ref : PostingRef) :
    0 ≤ (s.appliedTo ref).minor ∧ (s.appliedTo ref).minor ≤ (r.appliedTo ref).minor := by
  have hs := consistent_of_reachable hpos h.reachable
  refine ⟨hs.applied_nonneg ref, ?_⟩
  rw [hs.applied, hr.applied, h.active]
  exact appliedOver_filter_le (fun c hc => (hr.mem_active hc).2.positive) _ ref

/-- An accepted clearing is accepted without the other one too. -/
theorem clear (hpos : ∀ ref p, postings ref = some p → 0 < p.amount.minor) (hr : Consistent postings r)
    (h : Skips postings r id s) (hrec : (r.byId.get? id).isSome) {c : Clearing P} {lookup : PostingRef → Option (Posting P)}
    (hlookup : ∀ ref p, lookup ref = some p → postings ref = some p) {r' : ClearingRegister P}
    (hact : r.clear c lookup = .ok r') : ∃ s', Skips postings r' id s' := by
  have hs := consistent_of_reachable hpos h.reachable
  have hle := h.applied_le hpos hr
  obtain ⟨hid, -, seen, sides, applied, -, -, -, hr'⟩ := clear_eq_ok.1 hact
  have hne : c.id ≠ id := fun e => by
    rw [← e, hid] at hrec
    cases hrec
  have hfresh : s.byId.get? c.id = none := by
    by_contra hsome
    obtain ⟨d, hd, he⟩ := hs.recorded_iff.1 (Option.isSome_iff_ne_none.2 hsome)
    rw [h.events, cleared_without] at hd
    have hfile := hr.recorded_iff.2 ⟨d, (List.mem_filter.1 hd).1, he⟩
    rw [hid] at hfile
    cases hfile
  obtain ⟨s', hok⟩ := clear_mono (fun _ _ hp => hp) hle hfresh hact
  obtain ⟨hevents, hresets⟩ : s'.events = s.events ++ [.cleared c] ∧ s'.resetOn = s.resetOn := by
    obtain ⟨-, -, -, -, -, -, -, -, rfl⟩ := clear_eq_ok.1 hok
    exact ⟨rfl, rfl⟩
  refine ⟨s', h.reachable.step (@step_of_act _ _ _ _ (.clear c lookup) hlookup hok), ?_, by rw [hr', hresets, h.resets]⟩
  have hkeep : without id [ClearingEvent.cleared c] = [.cleared c] := List.filter_cons_of_pos (by simpa using hne)
  show s'.events = without id r'.events
  rw [hr', hevents, without_append, hkeep, h.events]

/-- So is an accepted reset of another clearing. -/
theorem reset (hpos : ∀ ref p, postings ref = some p → 0 < p.amount.minor) (hr : Consistent postings r)
    (h : Skips postings r id s) {other : ClearingId} (hne : other ≠ id) {on : Date} {r' : ClearingRegister P}
    (hact : r.reset other on = .ok r') : ∃ s', Skips postings r' id s' := by
  have hs := consistent_of_reachable hpos h.reachable
  obtain ⟨i, c, applied, hi, hother, hc, -, rfl⟩ := reset_eq_ok.1 hact
  have hrec : (s.byId.get? other).isSome := by
    obtain ⟨d, hd, he⟩ := hr.recorded_iff.1 (by rw [hi]; rfl)
    refine hs.recorded_iff.2 ⟨d, ?_, he⟩
    rw [h.events, cleared_without]
    exact List.mem_filter.2 ⟨hd, by simpa [he] using hne⟩
  obtain ⟨s', hok⟩ := hs.reset_ok hrec (by rw [h.resets]; exact hother) on
  refine ⟨s', h.reachable.step (@step_of_act _ _ _ _ (.reset other on) trivial hok), ?_, ?_⟩
  · obtain ⟨-, -, -, -, -, -, -, rfl⟩ := reset_eq_ok.1 hok
    have hkeep : without id [(ClearingEvent.reset other on : ClearingEvent P)] = [.reset other on] := rfl
    show s.events ++ [.reset other on] = without id (r.events ++ [.reset other on])
    rw [without_append, hkeep, h.events]
  · obtain ⟨-, -, -, -, -, -, -, rfl⟩ := reset_eq_ok.1 hok
    show s.resetOn.insert other on = r.resetOn.insert other on
    rw [h.resets]

end Skips

/-- Every clearing that was not reset can be left out. -/
theorem skips_of_reachable (hpos : ∀ ref p, postings ref = some p → 0 < p.amount.minor) {r : ClearingRegister P}
    (hr : (registers postings).Reachable r) {id : ClearingId} (hrec : (r.byId.get? id).isSome)
    (hunreset : r.resetOn.get? id = none) : ∃ s, Skips postings r id s := by
  have hall : (registers postings).Reachable r ∧
      ∀ id, (r.byId.get? id).isSome → r.resetOn.get? id = none → ∃ s, Skips postings r id s := by
    refine LTS.Inductive.reachable (T := registers postings) (I := fun r => (registers postings).Reachable r ∧
      ∀ id, (r.byId.get? id).isSome → r.resetOn.get? id = none → ∃ s, Skips postings r id s) ⟨?_, ?_⟩ hr
    · intro r h
      obtain rfl : r = new := h
      exact ⟨.of_init rfl, fun id hrec => by simp [new] at hrec⟩
    · intro r call r' h st
      refine ⟨h.1.step st, ?_⟩
      have hcons := consistent_of_reachable hpos h.1
      obtain ⟨hcall, rfl⟩ := st
      rcases r.after_cases call with hsame | hact
      · rw [hsame]
        exact h.2
      generalize r.after call = r' at hact
      intro id hrec hunreset
      cases call with
      | clear c lookup =>
        obtain ⟨hid, -, seen, sides, applied, -, -, -, rfl⟩ := clear_eq_ok.1 hact
        by_cases he : c.id = id
        · -- the register before it
          subst he
          refine ⟨r, h.1, ?_, rfl⟩
          have hnone : without c.id r.events = r.events := by
            refine List.filter_eq_self.2 fun e he => ?_
            cases e with
            | reset => rfl
            | cleared d =>
              refine decide_eq_true fun hd => ?_
              have hfile := hcons.recorded_iff.2 ⟨d, mem_cleared.2 he, hd⟩
              rw [hid] at hfile
              cases hfile
          have hdrop : without c.id [ClearingEvent.cleared c] = [] := List.filter_cons_of_neg (by simp)
          show r.events = without c.id (r.events ++ [.cleared c])
          rw [without_append, hnone, hdrop, List.append_nil]
        · have hrec : ((r.byId.insert c.id r.events.length).get? id).isSome := hrec
          rw [OrdMap.get?_insert_ne he] at hrec
          obtain ⟨s, hs⟩ := h.2 id hrec hunreset
          exact hs.clear hpos hcons hrec hcall hact
      | reset other on =>
        obtain ⟨i, c, applied, hi, hother, hc, happlied, rfl⟩ := reset_eq_ok.1 hact
        have hunreset : (r.resetOn.insert other on).get? id = none := hunreset
        have hne : other ≠ id := fun e => by
          rw [e, OrdMap.get?_insert_self] at hunreset
          cases hunreset
        rw [OrdMap.get?_insert_ne hne] at hunreset
        obtain ⟨s, hs⟩ := h.2 id hrec hunreset
        exact hs.reset hpos hcons hne hact
  exact hall.2 id hrec hunreset

/-- **The clearing register.** Over postings with positive amounts: what is applied
to a posting is what the clearings that were not reset apply to it, and within its
amount; each of them relates postings of one key and its sides agree; a refused call
changes nothing; a clearing that was not reset can be, and leaves the residuals there
would be without it. -/
theorem clearings_of_reachable (hpos : ∀ ref p, postings ref = some p → 0 < p.amount.minor) {r : ClearingRegister P}
    (hr : (registers postings).Reachable r) :
    (∀ ref, (r.appliedTo ref).minor = appliedOver r.active ref) ∧
    (∀ ref p, postings ref = some p → 0 ≤ (r.appliedTo ref).minor ∧ (r.appliedTo ref).minor ≤ p.amount.minor) ∧
    (∀ c ∈ r.active, sideOf postings .debit c.items = sideOf postings .credit c.items ∧
      ∀ item ∈ c.items, ∃ p, postings item.posting = some p ∧ p.account = c.account ∧ p.currency = c.currency ∧
        p.layer = c.layer) ∧
    (∀ call e, r.act call = .error e → r.after call = r) ∧
    ∀ id on, (r.byId.get? id).isSome → r.resetOn.get? id = none → ∃ r', r.reset id on = .ok r' ∧
      ∃ s, (registers postings).Reachable s ∧ s.events = without id r.events ∧
        ∀ ref lookup, r'.residualOf ref lookup = s.residualOf ref lookup := by
  have h := consistent_of_reachable hpos hr
  refine ⟨h.applied, fun ref p hp => ⟨h.applied_nonneg ref, h.bounded ref p hp⟩, fun c hc => ?_, fun call e he => ?_, ?_⟩
  · have hproper := (h.mem_active hc).2
    refine ⟨hproper.sides, fun item hi => ?_⟩
    obtain ⟨p, hp, hkey⟩ := hproper.scope item hi
    obtain ⟨ha, hcur, hl⟩ := BalanceKey.mk.inj hkey
    exact ⟨p, hp, ha, hcur, hl⟩
  · rw [after, he]
    rfl
  · intro id on hrec hunreset
    obtain ⟨r', hok⟩ := h.reset_ok hrec hunreset on
    obtain ⟨s, hs⟩ := skips_of_reachable hpos hr hrec hunreset
    refine ⟨r', hok, s, hs.reachable, hs.events, fun ref lookup => ?_⟩
    have happlied : r'.appliedTo ref = s.appliedTo ref := by
      apply Amount.ext
      rw [(h.reset hok).applied, (consistent_of_reachable hpos hs.reachable).applied, active_reset hok, hs.active]
    unfold residualOf
    rw [happlied]

/-! ## An invoice and its payment -/

/-- An invoice and its payment, on one account. -/
def openItems : List (Posting cents) := [.debit cashId tenEuro .eur, .credit cashId tenEuro .eur]

/-- Both are postings of one entry. -/
def openBook (ref : PostingRef) : Option (Posting cents) :=
  if ref.entry = saleOfMarch.id then openItems[ref.index]? else none

def invoice : PostingRef := ⟨saleOfMarch.id, 0⟩
def payment : PostingRef := ⟨saleOfMarch.id, 1⟩

def invoicePaid : Clearing cents where
  id := ⟨saleOfMarch.id.uuid⟩
  account := cashId
  currency := .eur
  layer := .settled
  clearedOn := march.end
  items := [⟨invoice, tenEuro⟩, ⟨payment, tenEuro⟩]

/-- The register once the invoice is paid. -/
def paidRegister : ClearingRegister cents := after new (.clear invoicePaid openBook)

theorem openBook_positive : ∀ ref p, openBook ref = some p → 0 < p.amount.minor := by
  intro ref p hp
  unfold openBook at hp
  split at hp
  · rcases List.mem_pair.1 (List.mem_of_getElem? hp) with rfl | rfl
    · decide
    · decide
  · cases hp

/-- Not vacuous: the invoice is cleared, and released by a reset. -/
theorem invoice_released : (paidRegister.appliedTo invoice).minor = 1000 ∧
    (paidRegister.appliedTo invoice).minor = appliedOver paidRegister.active invoice ∧
    ∃ r', paidRegister.reset invoicePaid.id april.start = .ok r' ∧ ∃ s, (registers openBook).Reachable s ∧
      s.events = [] ∧ ∀ ref lookup, r'.residualOf ref lookup = s.residualOf ref lookup := by
  have hstep : (registers openBook).step new (.clear invoicePaid openBook) paidRegister := ⟨fun _ _ h => h, rfl⟩
  obtain ⟨happlied, -, -, -, hreset⟩ := clearings_of_reachable openBook_positive ((LTS.Reachable.of_init rfl).step hstep)
  have hrec : (paidRegister.byId.get? invoicePaid.id).isSome := by decide
  obtain ⟨r', hok, s, hs, hevents, hresidual⟩ := hreset invoicePaid.id april.start hrec (by decide)
  have hcleared : paidRegister.events.length = 1 ∧ (without invoicePaid.id paidRegister.events).length = 0 := by decide
  exact ⟨by decide, happlied invoice, r', hok, s, hs, hevents.trans (List.length_eq_zero_iff.1 hcleared.2), hresidual⟩

end ClearingRegister

/-! ## The register of a journal -/

namespace Journal

variable {H : Type} [Blake3 H]

theorem Mapped.lookup_stays {j j' : Journal H P} (h : j.Mapped) (h' : j'.Mapped) (hentries : j.entries <+: j'.entries)
    {ref : PostingRef} {p : Posting P} (hp : j.postingLookup ref = some p) : j'.postingLookup ref = some p := by
  obtain ⟨entry, hentry, hposting⟩ := Option.bind_eq_some_iff.1 hp
  obtain ⟨i, hi, hat⟩ := Option.bind_eq_some_iff.1 hentry
  obtain ⟨e, he, hid⟩ := (h.byId _ i).1 hi
  obtain ⟨new, hnew⟩ := hentries
  have hkeep : ∀ x, j.entries[i]? = some x → j'.entries[i]? = some x := fun x hx => by
    rw [← hnew, List.getElem?_append_left (List.getElem?_eq_some_iff.1 hx).1]
    exact hx
  have hi' : j'.byId.get? ref.entry = some i := (h'.byId _ i).2 ⟨e, hkeep e he, hid⟩
  exact Option.bind_eq_some_iff.2 ⟨entry, Option.bind_eq_some_iff.2 ⟨i, hi', hkeep entry hat⟩, hposting⟩

variable [DecidableEq H]

theorem operate_entries (j : Journal H P) (o : Operation H P) : j.entries <+: (j.operate o).entries := by
  rcases j.operate_cases o with hs | ⟨new, happ, -⟩ | ⟨entries, e, rfl, -⟩
  · rw [hs.entries]
  · rw [happ.entries_eq]
    exact List.prefix_append _ _
  · obtain ⟨-, new, hn, -⟩ := j.recordBatch_frame entries
    exact ⟨new, hn.symm⟩

theorem recordBatch_clearings {j j' : Journal H P} (hlog : j.Logged) {entries : List (Entry H .balanced P)}
    {res : Except (JournalError H) (List (Recorded H))} (h : j.recordBatch entries = (res, j')) :
    j'.clearings = j.clearings := by
  cases res with
  | error e =>
    obtain ⟨balances, sites, rfl⟩ := recordBatch_error hlog h
    rfl
  | ok out =>
    obtain ⟨new, happ, -⟩ := recordBatch_ok h
    exact happ.keepsAll (I := fun k => k.clearings = j.clearings) rfl fun _ _ _ hk _ => hk

/-- An operation is a call of the register, or leaves it alone. -/
theorem operate_clearings {j : Journal H P} (hlog : j.Logged) (o : Operation H P) :
    (j.operate o).clearings = j.clearings ∨ ∃ call, ClearingRegister.Resolves j.postingLookup call ∧
      j.clearings.act call = .ok (j.operate o).clearings := by
  have hkept : ∀ {x : Except (JournalError H) (Journal H P)}, (∀ j', x = .ok j' → j'.clearings = j.clearings) →
      (keep x j).clearings = j.clearings := by
    intro x hx
    rcases keep_cases x j with h | h
    · rw [h]
    · exact hx _ h
  cases o with
  | accountsMut => exact .inl rfl
  | calendarMut => exact .inl rfl
  | withPolicy => exact .inl rfl
  | mutate m =>
    cases m with
    | recordValidated entry =>
      refine .inl (show (j.mutate (.recordValidated entry)).clearings = j.clearings from ?_)
      rcases j.mutate_recordValidated entry with hsame | ⟨balances, -, hstored⟩
      · rw [hsame]
      · rw [hstored]
        rfl
    | recordBatch entries => exact .inl (recordBatch_clearings hlog rfl)
    | call k =>
      cases k with
      | record draft =>
        refine .inl (hkept fun j' h => ?_)
        obtain ⟨⟨recorded, j₁⟩, hr, rfl⟩ := map_eq_ok.1 h
        rcases record_cases hr with rfl | ⟨entry, balances, -, -, rfl⟩
        · rfl
        · rfl
      | definePeriod period =>
        refine .inl (hkept fun j' h => ?_)
        obtain ⟨calendar, -, rfl⟩ := definePeriod_eq_ok.1 h
        rfl
      | transitionPeriod id target =>
        refine .inl (hkept fun j' h => ?_)
        obtain ⟨calendar, -, rfl⟩ := transitionPeriod_eq_ok.1 h
        rfl
      | sealPeriod id =>
        refine .inl (show (j.sealPeriod id).2.clearings = j.clearings from ?_)
        rcases j.sealPeriod_cases id with ⟨e, h⟩ | ⟨q, closing, -, -, -, h⟩
        · rw [h]
        · rw [h]
      | register => exact .inl rfl
      | close => exact .inl rfl
      | reopen => exact .inl rfl
      | setLimit => exact .inl rfl
      | clear clearing =>
        rcases keep_cases (j.clear clearing) j with h | h
        · exact .inl (congrArg Journal.clearings h)
        · obtain ⟨clearings, hc, he⟩ := map_eq_ok.1 h
          refine .inr ⟨.clear clearing j.postingLookup, fun _ _ h => h, ?_⟩
          rw [show j.operate (.mutate (.call (.clear clearing))) = _ from he.symm]
          exact mapError_eq_ok.1 hc
      | resetClearing id on =>
        rcases keep_cases (j.resetClearing id on) j with h | h
        · exact .inl (congrArg Journal.clearings h)
        · obtain ⟨clearings, hc, he⟩ := map_eq_ok.1 h
          refine .inr ⟨.reset id on, trivial, ?_⟩
          rw [show j.operate (.mutate (.call (.resetClearing id on))) = _ from he.symm]
          exact mapError_eq_ok.1 hc

omit [DecidableEq H] [Blake3 H] in
theorem registers_mono {postings postings' : PostingRef → Option (Posting P)}
    (h : ∀ ref p, postings ref = some p → postings' ref = some p) {r : ClearingRegister P}
    (hr : (ClearingRegister.registers postings).Reachable r) : (ClearingRegister.registers postings').Reachable r := by
  refine LTS.Inductive.reachable (T := ClearingRegister.registers postings) ⟨fun r h₀ => .of_init h₀, ?_⟩ hr
  intro r call r' hr st
  refine hr.step (l := call) ⟨?_, st.2⟩
  cases call with
  | reset => trivial
  | clear c lookup => exact fun ref p hp => h ref p (st.1 ref p hp)

/-- **The register of a journal is one over its postings.** -/
theorem clearings_reachable {ledger : LedgerId} {j : Journal H P} (hj : (operations ledger).Reachable j) :
    (ClearingRegister.registers j.postingLookup).Reachable j.clearings := by
  have hall : j.Mapped ∧ (ClearingRegister.registers j.postingLookup).Reachable j.clearings := by
    refine LTS.Inductive.reachable (T := operations ledger)
      (I := fun j => j.Mapped ∧ (ClearingRegister.registers j.postingLookup).Reachable j.clearings) ⟨?_, ?_⟩ hj
    · intro j h
      obtain rfl : j = new ledger := h
      exact ⟨mapped_new ledger .permissive, .of_init rfl⟩
    · intro j o j' h st
      obtain rfl : j' = j.operate o := st
      have hmapped := h.1.operate o
      have hreach := registers_mono (fun ref p => h.1.lookup_stays hmapped (j.operate_entries o)) h.2
      refine ⟨hmapped, ?_⟩
      rcases operate_clearings h.1.logged o with hsame | ⟨call, hcall, hact⟩
      · rw [hsame]
        exact hreach
      · refine hreach.step (l := call) ⟨?_, (ClearingRegister.step_of_act hcall hact).2⟩
        cases call with
        | reset => trivial
        | clear c lookup => exact fun ref p hp => h.1.lookup_stays hmapped (j.operate_entries o) (hcall ref p hp)
  exact hall.2

/-- The register of a journal of sealed entries, whose amounts are positive. -/
theorem clearings_consistent {ledger : LedgerId} {j : Journal H P} (hj : (sealedOperations ledger).Reachable j) :
    ClearingRegister.Consistent j.postingLookup j.clearings := by
  have hkept := kept_of_reachable hj
  refine ClearingRegister.consistent_of_reachable (fun ref p hp => ?_) (clearings_reachable hj.of_restrict)
  obtain ⟨entry, hentry, hposting⟩ := Option.bind_eq_some_iff.1 hp
  obtain ⟨i, -, hat⟩ := Option.bind_eq_some_iff.1 hentry
  exact (hkept.fromSeal entry (List.mem_of_getElem? hat)).postable.1 p (List.mem_of_getElem? hposting)

end Journal

end DoubleEntry.L3
