import DoubleEntry.Core.Except
import DoubleEntry.Core.LargestRemainder
import DoubleEntry.L1Values.Money

/-!
# Splitting an amount

`Amount::distribute` and `Amount::allocate`: the magnitude is split by the
largest-remainder method in `u128` arithmetic and the sign is restored last.

Results:
* `allocate_eq`: no `u128` step overflows; the parts are those of `apportion`,
  narrowed and signed.
* `parts_sum_and_rank`: the parts sum to the amount, each its quota or one unit
  more, and the units go to the largest remainders.
* `allocate_ok_iff`: every split succeeds, but that of `i64::MIN` where one part
  takes the whole: the narrowing to `i64` comes before the sign.

**Assumptions.** A slice has at most `usize::MAX` weights (`Weights`), as every slice has. The
method itself, for any total and any weights, is `Core.LargestRemainder`.
-/
namespace DoubleEntry.L1

open DoubleEntry.Core

/-- A slice of weights. No slice is longer than `usize::MAX`. -/
structure Weights where
  list : List UInt64
  bounded : list.length < 2 ^ 64

namespace Weights

/-- What the weights come to. -/
def values (ws : Weights) : List ℕ := ws.list.map UInt64.toNat

def total (ws : Weights) : ℕ := ws.values.sum

/-- The weights that are not zero, in order. -/
def positives (ws : Weights) : List ℕ := ws.values.filter (· ≠ 0)

/-- `vec![1u64; n]` -/
def ones (n : UInt64) : Weights := ⟨List.replicate n.toNat 1, by rw [List.length_replicate]; exact n.toNat_lt⟩

variable {ws : Weights}

theorem lt_of_mem_values {w : ℕ} (h : w ∈ ws.values) : w < 2 ^ 64 := by
  obtain ⟨x, -, rfl⟩ := List.mem_map.1 h
  exact x.toNat_lt

theorem sum_lt {l : List UInt64} (h : l.length < 2 ^ 64) : (l.map UInt64.toNat).sum < 2 ^ 128 := by
  have hle : (l.map UInt64.toNat).sum ≤ l.length * (2 ^ 64 - 1) := by
    have h := List.sum_le_card_nsmul (l.map UInt64.toNat) (2 ^ 64 - 1) fun w hw => by
      obtain ⟨x, -, rfl⟩ := List.mem_map.1 hw
      have := x.toNat_lt
      omega
    simpa using h
  have hmul : l.length * (2 ^ 64 - 1) ≤ 2 ^ 64 * (2 ^ 64 - 1) := Nat.mul_le_mul_right _ h.le
  omega

theorem values_ones (n : UInt64) : (ones n).values = List.replicate n.toNat 1 := by
  rw [values, ones, List.map_replicate]
  rfl

theorem total_ones (n : UInt64) : (ones n).total = n.toNat := by
  rw [total, values_ones, List.sum_replicate, smul_eq_mul, Nat.mul_one]

end Weights

/-- The overflow check of a `u128` operation. -/
def checkedU128 (n : ℕ) : Except MoneyError ℕ := if n < 2 ^ 128 then .ok n else .error .overflow

theorem checkedU128_ok {n : ℕ} (h : n < 2 ^ 128) : checkedU128 n = .ok n := if_pos h

/-- `checked_sub` of a `u128`. -/
def checkedSubU128 (a b : ℕ) : Except MoneyError ℕ := if b ≤ a then .ok (a - b) else .error .overflow

namespace Amount

variable {P : Scale}

/-! ## The loops of `allocate` -/

/-- mirrors src/money.rs:303-308 -/
def totalWeight (weights : List UInt64) : Except MoneyError ℕ :=
  weights.foldlM (fun total w => checkedU128 (total + w.toNat)) 0

/-- What the loop over the weights collects. -/
structure Shares where
  parts : List ℕ
  remainders : List (ℕ × ℕ)
  assigned : ℕ

/-- One weight of the loop.
mirrors src/money.rs:322-331 -/
def shareStep (magnitude total : ℕ) (s : Shares) (weight : UInt64 × ℕ) : Except MoneyError Shares := do
  let product ← checkedU128 (magnitude * weight.1.toNat)
  if total = 0 then .error .zeroWeight
  else
    let share := product / total
    let rem := product % total
    let assigned ← checkedU128 (s.assigned + share)
    .ok ⟨s.parts ++ [share], s.remainders ++ [(rem, weight.2)], assigned⟩

/-- The loop that hands out the units left over.
mirrors src/money.rs:339-347 -/
def leftoverLoop : List (ℕ × ℕ) → ℕ → List ℕ → Except MoneyError (List ℕ)
  | [], _, parts => .ok parts
  | (_, idx) :: remainders, leftover, parts =>
    if leftover = 0 then .ok parts
    else match parts[idx]? with
      | none => leftoverLoop remainders leftover parts
      | some slot => do
        let slot ← checkedU128 (slot + 1)
        let leftover ← checkedSubU128 leftover 1
        leftoverLoop remainders leftover (parts.set idx slot)

/-- A part as an `i64`, and then its sign.
mirrors src/money.rs:349-359 -/
def narrow (negative : Bool) (p : ℕ) : Except MoneyError (Amount P) := do
  let v ← if p < 2 ^ 63 then .ok p else .error .overflow
  if negative then checked (-(v : Int)) else checked v

/-- mirrors src/money.rs:299-360 -/
def allocate (a : Amount P) (weights : Weights) : Except MoneyError (List (Amount P)) := do
  if weights.list = [] then .error .zeroWeight
  else
    let total ← totalWeight weights.list
    if total = 0 then .error .zeroWeight
    else
      let negative := a.isNegative
      let magnitude := a.minor.natAbs
      let s ← weights.list.zipIdx.foldlM (shareStep magnitude total) ⟨[], [], 0⟩
      let leftover ← checkedSubU128 magnitude s.assigned
      -- largest remainder first, ties by ascending index
      let remainders := orderBy rankKey s.remainders
      let parts ← leftoverLoop remainders leftover s.parts
      parts.mapM (narrow negative)

/-- mirrors src/money.rs:285-290 -/
def distribute (a : Amount P) (n : UInt64) : Except MoneyError (List (Amount P)) :=
  if n = 0 then .error .zeroWeight else a.allocate (.ones n)

/-! ## No step overflows -/

theorem totalWeight_eq {weights : List UInt64} (h : (weights.map UInt64.toNat).sum < 2 ^ 128) :
    totalWeight weights = .ok (weights.map UInt64.toNat).sum := by
  have hloop : ∀ (weights : List UInt64) (total : ℕ), total + (weights.map UInt64.toNat).sum < 2 ^ 128 →
      weights.foldlM (fun total w => checkedU128 (total + w.toNat)) total =
        .ok (total + (weights.map UInt64.toNat).sum) := by
    intro weights
    induction weights with
    | nil => exact fun total _ => rfl
    | cons w weights ih =>
      intro total h
      rw [List.map_cons, List.sum_cons] at h
      rw [List.foldlM_cons, checkedU128_ok (by omega)]
      have hrest := ih (total + w.toNat) (by omega)
      rw [List.map_cons, List.sum_cons, ← Nat.add_assoc]
      exact hrest
  have h0 := hloop weights 0 (by rwa [Nat.zero_add])
  rwa [Nat.zero_add] at h0

theorem shareLoop_eq {magnitude total : ℕ} (hmag : magnitude ≤ 2 ^ 63) (htotal : 0 < total) (weights : List UInt64) :
    ∀ (k : ℕ) (s : Shares), s.assigned + (weights.map fun w => magnitude * w.toNat / total).sum < 2 ^ 128 →
      (weights.zipIdx k).foldlM (shareStep magnitude total) s =
        .ok ⟨s.parts ++ weights.map fun w => magnitude * w.toNat / total,
          s.remainders ++ (weights.zipIdx k).map fun p => (magnitude * p.1.toNat % total, p.2),
          s.assigned + (weights.map fun w => magnitude * w.toNat / total).sum⟩ := by
  induction weights with
  | nil =>
    intro k s _
    simp [pure, Except.pure]
  | cons w weights ih =>
    intro k s h
    have hproduct : magnitude * w.toNat < 2 ^ 128 := by
      have hmul := Nat.mul_le_mul hmag w.toNat_lt.le
      omega
    rw [List.map_cons, List.sum_cons] at h
    have hstep : shareStep magnitude total s (w, k) =
        .ok ⟨s.parts ++ [magnitude * w.toNat / total], s.remainders ++ [(magnitude * w.toNat % total, k)],
          s.assigned + magnitude * w.toNat / total⟩ := by
      simp only [shareStep, checkedU128_ok hproduct, bind, Except.bind]
      rw [if_neg (by omega), checkedU128_ok (by omega)]
    rw [List.zipIdx_cons, List.foldlM_cons, hstep]
    simp only [bind, Except.bind]
    rw [ih (k + 1) _ (by simp only; omega)]
    simp [Nat.add_assoc]

theorem leftoverLoop_eq (remainders : List (ℕ × ℕ)) :
    ∀ (leftover : ℕ) (parts : List ℕ), (∀ r ∈ remainders, r.2 < parts.length) → (∀ p ∈ parts, p + leftover < 2 ^ 128) →
      leftoverLoop remainders leftover parts = .ok (give ((remainders.take leftover).map Prod.snd) parts) := by
  induction remainders with
  | nil => exact fun leftover parts _ _ => by rw [List.take_nil]; rfl
  | cons r remainders ih =>
    intro leftover parts hidx hsmall
    obtain ⟨rem, idx⟩ := r
    cases leftover with
    | zero => rfl
    | succ leftover =>
      have hlt : idx < parts.length := hidx (rem, idx) List.mem_cons_self
      have hslot := hsmall parts[idx] (List.getElem_mem hlt)
      have hset : parts.set idx (parts[idx] + 1) = parts.modify idx (· + 1) := by
        rw [List.modify_eq_set_getElem? (· + 1) idx parts, List.getElem?_eq_getElem hlt]
        rfl
      rw [leftoverLoop, if_neg (by omega), List.getElem?_eq_getElem hlt]
      simp only [checkedU128_ok (show parts[idx] + 1 < 2 ^ 128 by omega), checkedSubU128, bind, Except.bind]
      rw [if_pos (by omega), Nat.add_sub_cancel, hset]
      simp only [List.take_succ_cons, List.map_cons, give]
      refine ih leftover _ (fun r hr => ?_) fun p hp => ?_
      · rw [List.length_modify]
        exact hidx r (List.mem_cons_of_mem _ hr)
      · rw [← hset] at hp
        rcases List.mem_or_eq_of_mem_set hp with hp | rfl
        · have := hsmall p hp
          omega
        · omega

theorem zipIdx_values (ws : Weights) (magnitude total : ℕ) :
    (ws.list.zipIdx.map fun p => (magnitude * p.1.toNat % total, p.2)) =
      ws.values.zipIdx.map fun p => (magnitude * p.1 % total, p.2) := by
  rw [Weights.values, List.zipIdx_map, List.map_map]
  rfl

/-- **No step on the way overflows.** What is left is to narrow the parts of the split. -/
theorem allocate_eq (a : Amount P) {ws : Weights} (hpos : 0 < ws.total) :
    a.allocate ws = (apportion a.minor.natAbs ws.values).mapM (narrow a.isNegative) := by
  have hne : ws.list ≠ [] := fun h => by
    rw [Weights.total, Weights.values, h] at hpos
    cases hpos
  have hmag : a.minor.natAbs ≤ 2 ^ 63 := by
    have hfits := a.fits
    unfold FitsI64 i64Min i64Max at hfits
    omega
  have htotal : totalWeight ws.list = .ok ws.total := totalWeight_eq (Weights.sum_lt ws.bounded)
  have hshares : (ws.list.map fun w => a.minor.natAbs * w.toNat / ws.total) = shares a.minor.natAbs ws.values := by
    rw [shares, Weights.values, List.map_map]
    rfl
  have hsum := shares_sum_le (m := a.minor.natAbs) hpos
  have hloop := shareLoop_eq hmag hpos ws.list 0 ⟨[], [], 0⟩ (by rw [hshares]; simp only; omega)
  rw [hshares, zipIdx_values] at hloop
  simp only [List.nil_append, Nat.zero_add] at hloop
  have hsmall : ∀ p ∈ shares a.minor.natAbs ws.values, p + leftover a.minor.natAbs ws.values < 2 ^ 128 := fun p hp => by
    have hle := List.le_sum_of_mem hp
    unfold leftover
    omega
  have hidx : ∀ r ∈ ranked a.minor.natAbs ws.values, r.2 < (shares a.minor.natAbs ws.values).length := fun r hr => by
    obtain ⟨rem, i⟩ := r
    obtain ⟨w, hw, -⟩ := mem_rests.1 (ranked_perm.mem_iff.1 hr)
    rw [shares, List.length_map]
    exact (List.getElem?_eq_some_iff.1 hw).1
  unfold allocate
  rw [if_neg hne, htotal]
  simp only [bind, Except.bind]
  rw [if_neg (by omega), hloop]
  simp only [checkedSubU128]
  rw [if_pos hsum]
  simp only
  have hgive : leftoverLoop
      (orderBy rankKey (ws.values.zipIdx.map fun p => (a.minor.natAbs * p.1 % ws.total, p.2)))
      (a.minor.natAbs - (shares a.minor.natAbs ws.values).sum) (shares a.minor.natAbs ws.values) =
        .ok (apportion a.minor.natAbs ws.values) := leftoverLoop_eq _ _ _ hidx hsmall
  rw [hgive]

theorem narrow_eq_ok {negative : Bool} {p : ℕ} {x : Amount P} :
    narrow negative p = .ok x ↔ p < 2 ^ 63 ∧ x.minor = if negative then -(p : Int) else p := by
  unfold narrow
  by_cases hp : p < 2 ^ 63
  · rw [if_pos hp]
    simp only [bind, Except.bind, hp, true_and]
    cases negative with
    | true => exact checked_eq_ok
    | false => exact checked_eq_ok
  · rw [if_neg hp]
    simp only [bind, Except.bind, hp, false_and, reduceCtorEq]

theorem narrow_ok {negative : Bool} {p : ℕ} (hp : p < 2 ^ 63) : ∃ x : Amount P, narrow negative p = .ok x := by
  have hfits : FitsI64 (if negative then -(p : Int) else p) := by
    unfold FitsI64 i64Min i64Max
    cases negative <;> simp <;> omega
  exact ⟨⟨_, hfits⟩, narrow_eq_ok.2 ⟨hp, rfl⟩⟩

theorem total_pos_of_ok {a : Amount P} {ws : Weights} {parts : List (Amount P)} (h : a.allocate ws = .ok parts) :
    0 < ws.total := by
  by_contra hzero
  have htotal : (ws.list.map UInt64.toNat).sum = 0 := by
    have : ws.total = 0 := by omega
    exact this
  unfold allocate at h
  by_cases hne : ws.list = []
  · rw [if_pos hne] at h
    cases h
  · rw [if_neg hne, totalWeight_eq (Weights.sum_lt ws.bounded), htotal] at h
    cases h

/-! ## When a split succeeds -/

/-- The parts all fit unless one of them is the whole of `i64::MIN`. -/
theorem allocate_ok (a : Amount P) {ws : Weights} (hpos : 0 < ws.total) :
    (∃ parts, a.allocate ws = .ok parts) ↔
      (a.minor = i64Min → ws.positives.length ≠ 1 ∧ ws.positives ≠ [2 ^ 64 - 1, 1]) := by
  have hsplit := apportion_split (m := a.minor.natAbs) hpos
  have hfits := a.fits
  unfold FitsI64 i64Min i64Max at hfits
  rw [allocate_eq a hpos]
  by_cases hmin : a.minor = i64Min
  · have hmag : a.minor.natAbs = 2 ^ 63 := by
      rw [hmin]
      rfl
    rw [hmag] at hsplit ⊢
    have hwhole := hsplit.whole_iff (by omega) (fun w hw => by have := Weights.lt_of_mem_values hw; omega) hpos
    have hiff : (∃ parts : List (Amount P), (apportion (2 ^ 63) ws.values).mapM (narrow a.isNegative) = .ok parts) ↔
        2 ^ 63 ∉ apportion (2 ^ 63) ws.values := by
      constructor
      · rintro ⟨parts, hok⟩ hmem
        obtain ⟨i, hi⟩ := List.getElem?_of_mem hmem
        obtain ⟨x, -, hx⟩ := getElem?_of_mapM hok hi
        exact absurd (narrow_eq_ok.1 hx).1 (by omega)
      · intro hnot
        refine mapM_isOk fun p hp => narrow_ok ?_
        have hle := List.le_sum_of_mem hp
        rw [hsplit.sum] at hle
        have hne : p ≠ 2 ^ 63 := fun h => hnot (h ▸ hp)
        omega
    rw [hiff, hwhole, not_or]
    exact ⟨fun h _ => h, fun h => h hmin⟩
  · refine iff_of_true (mapM_isOk fun p hp => narrow_ok ?_) fun h => absurd h hmin
    have hle := List.le_sum_of_mem hp
    rw [hsplit.sum] at hle
    unfold i64Min at hmin
    omega

theorem distribute_eq (a : Amount P) {n : UInt64} (hn : n ≠ 0) : a.distribute n = a.allocate (.ones n) := if_neg hn

theorem positives_ones (n : UInt64) : (Weights.ones n).positives = List.replicate n.toNat 1 := by
  rw [Weights.positives, Weights.values_ones, List.filter_replicate_of_pos rfl]

/-- **Every split succeeds but one of `i64::MIN` that gives one part the whole.** -/
theorem allocate_ok_iff (a : Amount P) :
    (∀ ws : Weights, 0 < ws.total → ((∃ parts, a.allocate ws = .ok parts) ↔
      (a.minor = i64Min → ws.positives.length ≠ 1 ∧ ws.positives ≠ [2 ^ 64 - 1, 1]))) ∧
    ∀ n : UInt64, n ≠ 0 → ((∃ parts, a.distribute n = .ok parts) ↔ (a.minor = i64Min → n ≠ 1)) := by
  refine ⟨fun ws hpos => a.allocate_ok hpos, fun n hn => ?_⟩
  have hpos : 0 < n.toNat := Nat.pos_of_ne_zero fun h => hn (UInt64.toNat_inj.1 h)
  rw [distribute_eq a hn, allocate_ok a (by rw [Weights.total_ones]; exact hpos), positives_ones]
  have hone : n ≠ 1 ↔ n.toNat ≠ 1 := (not_congr UInt64.toNat_inj).symm
  have hlist : List.replicate n.toNat 1 ≠ [2 ^ 64 - 1, 1] := fun h => by
    have hmem : 2 ^ 64 - 1 ∈ List.replicate n.toNat 1 := by simp [h]
    have := List.eq_of_mem_replicate hmem
    omega
  rw [List.length_replicate, hone]
  exact ⟨fun h hmin => (h hmin).1, fun h hmin => ⟨h hmin, hlist⟩⟩

/-- The whole of `i64::MIN` to one part. -/
theorem least_not_split : (⟨i64Min, by decide⟩ : Amount cents).allocate (.ones 1) = .error .overflow ∧
    ¬ ∀ (P : Scale) (a : Amount P) (ws : Weights), 0 < ws.total → ∃ parts, a.allocate ws = .ok parts := by
  have herr : (⟨i64Min, by decide⟩ : Amount cents).allocate (.ones 1) = .error .overflow := by
    rw [allocate_eq _ (by rw [Weights.total_ones]; decide), Weights.values_ones]
    decide
  refine ⟨herr, fun h => ?_⟩
  obtain ⟨parts, hok⟩ := h cents ⟨i64Min, by decide⟩ (.ones 1) (by rw [Weights.total_ones]; decide)
  rw [herr] at hok
  cases hok

/-! ## What the parts are -/

/-- The exact quota of a weight, truncated toward zero. -/
def quota (a : Amount P) (ws : Weights) (w : ℕ) : Int := (a.minor * w).tdiv ws.total

/-- What truncating leaves of the quota, in parts of the total. -/
def remainder (a : Amount P) (ws : Weights) (w : ℕ) : ℕ := ((a.minor * w).tmod ws.total).natAbs

/-- The parts of an amount by the largest-remainder method. -/
structure Allocated (a : Amount P) (ws : Weights) (parts : List (Amount P)) : Prop where
  length : parts.length = ws.list.length
  sum : (parts.map minor).sum = a.minor
  near : ∀ {i w : ℕ} {p : Amount P}, ws.values[i]? = some w → parts[i]? = some p →
    p.minor = a.quota ws w ∨ p.minor = a.quota ws w + a.minor.sign
  zero : ∀ {i : ℕ} {p : Amount P}, ws.values[i]? = some 0 → parts[i]? = some p → p.minor = 0
  /-- A part with a unit more has the larger remainder, or the same one and the lower index. -/
  largest : ∀ {i j w v : ℕ} {p q : Amount P}, ws.values[i]? = some w → parts[i]? = some p → ws.values[j]? = some v →
    parts[j]? = some q → p.minor ≠ a.quota ws w → q.minor = a.quota ws v →
    a.remainder ws v < a.remainder ws w ∨ a.remainder ws v = a.remainder ws w ∧ i < j

theorem quota_eq (a : Amount P) (ws : Weights) (w : ℕ) :
    a.quota ws w = if a.minor < 0 then -((a.minor.natAbs * w / ws.total : ℕ) : Int)
      else (a.minor.natAbs * w / ws.total : ℕ) := by
  unfold quota
  by_cases hneg : a.minor < 0
  · obtain ⟨n, hn⟩ : ∃ n : ℕ, a.minor = -(n : Int) := ⟨a.minor.natAbs, by omega⟩
    have hproduct : a.minor * (w : Int) = -((n * w : ℕ) : Int) := by
      rw [hn]
      push_cast
      ring
    have habs : a.minor.natAbs = n := by omega
    rw [if_pos hneg, hproduct, Int.neg_tdiv, habs]
    rfl
  · obtain ⟨n, hn⟩ : ∃ n : ℕ, a.minor = (n : Int) := ⟨a.minor.natAbs, by omega⟩
    have hproduct : a.minor * (w : Int) = ((n * w : ℕ) : Int) := by
      rw [hn]
      push_cast
      ring
    have habs : a.minor.natAbs = n := by omega
    rw [if_neg hneg, hproduct, habs]
    rfl

theorem remainder_eq (a : Amount P) (ws : Weights) (w : ℕ) :
    a.remainder ws w = a.minor.natAbs * w % ws.total := by
  rw [remainder, Int.natAbs_tmod, Int.natAbs_mul, Int.natAbs_natCast, Int.natAbs_natCast]

/-- The parts of the split, each with the sign of the amount. -/
theorem signed_parts {a : Amount P} {ns : List ℕ} {parts : List (Amount P)}
    (h : ns.mapM (narrow a.isNegative) = .ok parts) :
    parts.length = ns.length ∧ (parts.map minor).sum = (if a.minor < 0 then -(ns.sum : Int) else ns.sum) ∧
      ∀ {i : ℕ} {p : Amount P}, parts[i]? = some p →
        ∃ n, ns[i]? = some n ∧ p.minor = if a.minor < 0 then -(n : Int) else n := by
  have hall := mapM_eq_ok.1 h
  have hsign : ∀ {n : ℕ} {p : Amount P}, narrow a.isNegative n = .ok p →
      p.minor = if a.minor < 0 then -(n : Int) else n := fun hn => by
    rw [(narrow_eq_ok.1 hn).2]
    simp [isNegative]
  refine ⟨hall.length_eq.symm, ?_, fun {i p} hp => ?_⟩
  · clear h
    induction hall with
    | nil => simp
    | cons hn _ ih =>
      rw [List.map_cons, List.sum_cons, List.sum_cons, ih, hsign hn]
      by_cases hneg : a.minor < 0
      · simp only [if_pos hneg]
        push_cast
        ring
      · simp only [if_neg hneg]
        push_cast
        ring
  · have hlt : i < ns.length := by
      rw [hall.length_eq]
      exact (List.getElem?_eq_some_iff.1 hp).1
    obtain ⟨p', hp', hn⟩ := getElem?_of_mapM h (List.getElem?_eq_getElem hlt)
    obtain rfl : p' = p := Option.some.inj (hp'.symm.trans hp)
    exact ⟨_, List.getElem?_eq_getElem hlt, hsign hn⟩

theorem allocated {a : Amount P} {ws : Weights} {parts : List (Amount P)} (h : a.allocate ws = .ok parts) :
    a.Allocated ws parts := by
  have hpos := total_pos_of_ok h
  have hsplit := apportion_split (m := a.minor.natAbs) hpos
  rw [allocate_eq a hpos] at h
  obtain ⟨hlen, hsum, hpart⟩ := signed_parts h
  generalize apportion a.minor.natAbs ws.values = ns at hsplit hlen hsum hpart
  have htotal : ws.values.sum = ws.total := rfl
  -- a part is its quota just when the part of the magnitude is its share
  have hquota : ∀ {w : ℕ} {p : Amount P} {n : ℕ}, (p.minor = if a.minor < 0 then -(n : Int) else n) →
      (p.minor = a.quota ws w ↔ n = a.minor.natAbs * w / ws.total) := fun {w p n} hp => by
    rw [hp, quota_eq]
    by_cases hneg : a.minor < 0
    · simp only [if_pos hneg]
      omega
    · simp only [if_neg hneg]
      omega
  refine ⟨?_, ?_, fun {i w p} hw hp => ?_, fun {i p} hw hp => ?_, fun {i j w v p q} hw hp hv hq hextra hnone => ?_⟩
  · rw [hlen, hsplit.length, Weights.values, List.length_map]
  · rw [hsum, hsplit.sum]
    by_cases hneg : a.minor < 0
    · rw [if_pos hneg]
      omega
    · rw [if_neg hneg]
      omega
  · obtain ⟨n, hn, hpn⟩ := hpart hp
    rcases hsplit.near hw hn with hshare | ⟨hshare, hrest⟩
    · exact .inl ((hquota hpn).2 hshare)
    · right
      rw [htotal] at hshare
      rw [hpn, quota_eq, hshare]
      rcases lt_trichotomy a.minor 0 with hneg | hzero | hgt
      · rw [if_pos hneg, if_pos hneg, Int.sign_eq_neg_one_of_neg hneg]
        push_cast
        ring
      · rw [hzero, Int.natAbs_zero, Nat.zero_mul, Nat.zero_mod] at hrest
        exact absurd hrest (lt_irrefl 0)
      · rw [if_neg (by omega), if_neg (by omega), Int.sign_eq_one_of_pos hgt]
        push_cast
        ring
  · obtain ⟨n, hn, hpn⟩ := hpart hp
    rw [hpn, hsplit.zero hw hn]
    simp
  · obtain ⟨n, hn, hpn⟩ := hpart hp
    obtain ⟨k, hk, hqk⟩ := hpart hq
    rw [remainder_eq, remainder_eq]
    exact hsplit.largest hw hn hv hk (fun he => hextra ((hquota hpn).2 he)) ((hquota hqk).1 hnone)

/-- **Nothing is lost and the largest remainders come first.** -/
theorem parts_sum_and_rank (a : Amount P) :
    (∀ (ws : Weights) (parts : List (Amount P)), a.allocate ws = .ok parts → a.Allocated ws parts) ∧
    ∀ (n : UInt64) (parts : List (Amount P)), a.distribute n = .ok parts →
      parts.length = n.toNat ∧ (parts.map minor).sum = a.minor ∧
        ∀ p ∈ parts, ∀ q ∈ parts, |p.minor - q.minor| ≤ 1 := by
  refine ⟨fun ws parts h => allocated h, fun n parts h => ?_⟩
  have hn : n ≠ 0 := fun h0 => by
    rw [distribute, if_pos h0] at h
    cases h
  rw [distribute_eq a hn] at h
  have hall := allocated h
  have hlen : parts.length = n.toNat := by rw [hall.length, Weights.ones, List.length_replicate]
  have hnear : ∀ p ∈ parts, p.minor = a.quota (.ones n) 1 ∨ p.minor = a.quota (.ones n) 1 + a.minor.sign := fun p hp => by
    obtain ⟨i, hi⟩ := List.getElem?_of_mem hp
    have hlt : i < n.toNat := by
      rw [← hlen]
      exact (List.getElem?_eq_some_iff.1 hi).1
    have hone : (Weights.ones n).values[i]? = some 1 := by
      rw [Weights.values_ones, List.getElem?_replicate, if_pos hlt]
    exact hall.near hone hi
  have hsign : a.minor.sign = -1 ∨ a.minor.sign = 0 ∨ a.minor.sign = 1 := by
    rcases Int.lt_trichotomy a.minor 0 with h | h | h
    · exact .inl (Int.sign_eq_neg_one_of_neg h)
    · exact .inr (.inl (by rw [h]; rfl))
    · exact .inr (.inr (Int.sign_eq_one_of_pos h))
  refine ⟨hlen, hall.sum, fun p hp q hq => ?_⟩
  have hp' := hnear p hp
  have hq' := hnear q hq
  rw [abs_le]
  omega

/-- A debt of one euro. -/
def debt : Amount cents := ⟨-100, by decide⟩

/-- Three have the same remainder, and one has no share. -/
def shares : Weights := ⟨[1, 1, 0, 1, 3], by decide⟩

/-- Not vacuous: of the three the first two get a unit more than their quota. Of three equal
parts the first does. -/
theorem debt_parts : ∃ parts, debt.allocate shares = .ok parts ∧ parts.map minor = [-17, -17, 0, -16, -50] ∧
    debt.Allocated shares parts ∧
    ∃ thirds, debt.distribute 3 = .ok thirds ∧ thirds.map minor = [-34, -33, -33] ∧ (thirds.map minor).sum = debt.minor ∧
      ∀ p ∈ thirds, ∀ q ∈ thirds, |p.minor - q.minor| ≤ 1 := by
  obtain ⟨hallocate, hdistribute⟩ := parts_sum_and_rank debt
  have hparts : (debt.allocate shares).map (·.map minor) = .ok [-17, -17, 0, -16, -50] := by decide
  have hthirds : (debt.distribute 3).map (·.map minor) = .ok [-34, -33, -33] := by decide
  obtain ⟨parts, hp, hminor⟩ := map_eq_ok.1 hparts
  obtain ⟨thirds, ht, hminor'⟩ := map_eq_ok.1 hthirds
  obtain ⟨-, hsum, hnear⟩ := hdistribute 3 thirds ht
  exact ⟨parts, hp, hminor, hallocate shares parts hp, thirds, ht, hminor', hsum, hnear⟩

end Amount

end DoubleEntry.L1
