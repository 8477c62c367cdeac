import DoubleEntry.Core.Select

/-!
# The largest-remainder method

`apportion m ws` splits `m` units in proportion to the weights `ws`: each weight
gets its share rounded down, and the units left over go one each to the largest
remainders, ties to the lowest position (`apportion_split`). What is left over is
less than the number of remainders that are not zero, so a weight of zero gets
nothing (`Split.zero`).

**Assumptions.** The weights are not all zero.

**Results.**
* `apportion_split`: the parts sum to `m`, each is its share or one more, and what gets one
  more ranks before what does not (`Split`).
* `Split.whole_iff`: when one part is the whole of `m`.
-/
namespace DoubleEntry.Core

variable {m : ℕ} {ws parts : List ℕ}

def shares (m : ℕ) (ws : List ℕ) : List ℕ := ws.map fun w => m * w / ws.sum

/-- The remainders, each with its position. -/
def rests (m : ℕ) (ws : List ℕ) : List (ℕ × ℕ) := ws.zipIdx.map fun p => (m * p.1 % ws.sum, p.2)

/-- Largest first; ties by position. -/
def rankKey (r : ℕ × ℕ) : ℕᵒᵈ ×ₗ ℕ := toLex (OrderDual.toDual r.1, r.2)

def ranked (m : ℕ) (ws : List ℕ) : List (ℕ × ℕ) := orderBy rankKey (rests m ws)

def leftover (m : ℕ) (ws : List ℕ) : ℕ := m - (shares m ws).sum

/-- One more unit at each of the positions. -/
def give : List ℕ → List ℕ → List ℕ
  | [], parts => parts
  | i :: is, parts => give is (parts.modify i (· + 1))

/-- The positions that get one of the units left over. -/
def extras (m : ℕ) (ws : List ℕ) : List ℕ := ((ranked m ws).take (leftover m ws)).map Prod.snd

def apportion (m : ℕ) (ws : List ℕ) : List ℕ := give (extras m ws) (shares m ws)

/-! ## Giving units -/

@[simp] theorem length_give (is parts : List ℕ) : (give is parts).length = parts.length := by
  induction is generalizing parts with
  | nil => rfl
  | cons i is ih => rw [give, ih, List.length_modify]

theorem sum_modify_succ {i : ℕ} (h : i < parts.length) : (parts.modify i (· + 1)).sum = parts.sum + 1 := by
  induction parts generalizing i with
  | nil => simp at h
  | cons p parts ih =>
    cases i with
    | zero => simp; omega
    | succ i =>
      have hrest := ih (i := i) (by simpa using h)
      simp only [List.modify_succ_cons, List.sum_cons, hrest]
      omega

theorem sum_give {is : List ℕ} (h : ∀ i ∈ is, i < parts.length) : (give is parts).sum = parts.sum + is.length := by
  induction is generalizing parts with
  | nil => simp [give]
  | cons i is ih =>
    have hstep := sum_modify_succ (h i List.mem_cons_self)
    rw [give, ih fun j hj => by rw [List.length_modify]; exact h j (List.mem_cons_of_mem _ hj), hstep, List.length_cons]
    omega

theorem getElem?_give {is : List ℕ} (h : is.Nodup) (i : ℕ) :
    (give is parts)[i]? = parts[i]?.map fun p => p + if i ∈ is then 1 else 0 := by
  induction is generalizing parts with
  | nil => simp [give]
  | cons j is ih =>
    rw [List.nodup_cons] at h
    rw [give, ih h.2, List.getElem?_modify]
    by_cases hij : j = i
    · subst hij
      simp [h.1, Option.map_map, Function.comp_def]
    · simp [hij, Ne.symm hij]

/-! ## What is left over -/

theorem sum_shares (m t : ℕ) (ws : List ℕ) :
    t * (ws.map fun w => m * w / t).sum + (ws.map fun w => m * w % t).sum = m * ws.sum := by
  induction ws with
  | nil => simp
  | cons w ws ih =>
    have hdiv := Nat.div_add_mod (m * w) t
    simp only [List.map_cons, List.sum_cons, Nat.mul_add]
    omega

theorem shares_sum_le (hpos : 0 < ws.sum) : (shares m ws).sum ≤ m := by
  have h := sum_shares m ws.sum ws
  have hle : ws.sum * (shares m ws).sum ≤ ws.sum * m := by
    rw [shares, Nat.mul_comm ws.sum m]
    omega
  exact Nat.le_of_mul_le_mul_left hle hpos

theorem map_fst_rests : (rests m ws).map Prod.fst = ws.map fun w => m * w % ws.sum := by
  have hcomp : (Prod.fst ∘ fun p : ℕ × ℕ => (m * p.1 % ws.sum, p.2)) = (fun w => m * w % ws.sum) ∘ Prod.fst := rfl
  rw [rests, List.map_map, hcomp, ← List.map_map, List.zipIdx_map_fst]

theorem map_snd_rests : (rests m ws).map Prod.snd = List.range ws.length := by
  have hcomp : (Prod.snd ∘ fun p : ℕ × ℕ => (m * p.1 % ws.sum, p.2)) = Prod.snd := rfl
  rw [rests, List.map_map, hcomp, List.zipIdx_map_snd, List.range_eq_range']

theorem ranked_perm : (ranked m ws).Perm (rests m ws) := orderBy_perm _ _

theorem sum_rests (hpos : 0 < ws.sum) : ((ranked m ws).map Prod.fst).sum = ws.sum * leftover m ws := by
  have h := sum_shares m ws.sum ws
  have hle := Nat.mul_le_mul_left ws.sum (shares_sum_le (m := m) hpos)
  rw [(ranked_perm.map Prod.fst).sum_eq, map_fst_rests, leftover, Nat.mul_sub, Nat.mul_comm ws.sum m]
  rw [Nat.mul_comm ws.sum m] at hle
  have hshares : (shares m ws).sum = (ws.map fun w => m * w / ws.sum).sum := rfl
  rw [hshares] at hle ⊢
  omega

/-- Of descending numbers below `t` that add up to `q` times `t`, the first `q` are positive. -/
theorem take_pos {t : ℕ} {rs : List ℕ} (hsorted : rs.Pairwise fun a b => b ≤ a) (hlt : ∀ r ∈ rs, r < t) (q : ℕ)
    (hsum : t * q ≤ rs.sum) (hpos : 0 < t) : q ≤ rs.length ∧ ∀ r ∈ rs.take q, 0 < r := by
  induction rs generalizing q with
  | nil =>
    have hq : q = 0 := by
      by_contra hne
      have := Nat.mul_pos hpos (Nat.pos_of_ne_zero hne)
      simp at hsum
      omega
    simp [hq]
  | cons r rs ih =>
    cases q with
    | zero => simp
    | succ q =>
      rw [List.pairwise_cons] at hsorted
      have hr := hlt r List.mem_cons_self
      rw [List.sum_cons, Nat.mul_succ] at hsum
      obtain ⟨hlen, htake⟩ := ih hsorted.2 (fun x hx => hlt x (List.mem_cons_of_mem _ hx)) q (by omega)
      refine ⟨by rw [List.length_cons]; omega, fun x hx => ?_⟩
      rcases List.mem_cons.1 (by simpa using hx : x ∈ r :: rs.take q) with rfl | hx
      · -- were the largest one zero, all would be
        by_contra hzero
        have hall : rs.sum = 0 := List.sum_eq_zero fun y hy => by
          have := hsorted.1 y hy
          omega
        have := Nat.mul_le_mul_left t (Nat.zero_le q)
        omega
      · exact htake x hx

/-! ## The split -/

/-- What is at a position: its share, and perhaps one unit more. -/
structure Split (m : ℕ) (ws parts : List ℕ) : Prop where
  length : parts.length = ws.length
  sum : parts.sum = m
  near : ∀ {i w p : ℕ}, ws[i]? = some w → parts[i]? = some p →
    p = m * w / ws.sum ∨ p = m * w / ws.sum + 1 ∧ 0 < m * w % ws.sum
  /-- A position with a unit more is ahead of one without. -/
  largest : ∀ {i j w v p q : ℕ}, ws[i]? = some w → parts[i]? = some p → ws[j]? = some v → parts[j]? = some q →
    p ≠ m * w / ws.sum → q = m * v / ws.sum →
    m * v % ws.sum < m * w % ws.sum ∨ m * v % ws.sum = m * w % ws.sum ∧ i < j

theorem mem_rests {i r : ℕ} : (r, i) ∈ rests m ws ↔ ∃ w, ws[i]? = some w ∧ r = m * w % ws.sum := by
  simp only [rests, List.mem_map, Prod.exists, Prod.mk.injEq, List.mem_zipIdx_iff_getElem?]
  constructor
  · rintro ⟨w, j, hw, rfl, rfl⟩
    exact ⟨w, hw, rfl⟩
  · rintro ⟨w, hw, rfl⟩
    exact ⟨w, i, hw, rfl, rfl⟩

theorem ranked_sorted : (ranked m ws).Pairwise fun a b => b.1 < a.1 ∨ a.1 = b.1 ∧ a.2 ≤ b.2 :=
  (orderBy_sorted rankKey (rests m ws)).imp fun {a b} h => by
    rcases Prod.Lex.toLex_le_toLex.1 h with h | ⟨h, hle⟩
    · exact .inl (OrderDual.toDual_lt_toDual.1 h)
    · exact .inr ⟨OrderDual.toDual_inj.1 h, hle⟩

theorem ranked_nodup : ((ranked m ws).map Prod.snd).Nodup := by
  rw [(ranked_perm.map Prod.snd).nodup_iff, map_snd_rests]
  exact List.nodup_range

theorem extras_nodup : (extras m ws).Nodup := by
  rw [extras, List.map_take]
  exact ranked_nodup.sublist (List.take_sublist _ _)

theorem lt_of_mem_extras {i : ℕ} (h : i ∈ extras m ws) : i < ws.length := by
  rw [extras, List.map_take] at h
  have hmem := (ranked_perm.map Prod.snd).mem_iff.1 (List.mem_of_mem_take h)
  rw [map_snd_rests] at hmem
  exact List.mem_range.1 hmem

/-- There is a remainder that is not zero for each unit left over. -/
theorem ranked_take_pos (hpos : 0 < ws.sum) :
    leftover m ws ≤ (ranked m ws).length ∧ ∀ r ∈ (ranked m ws).take (leftover m ws), 0 < r.1 := by
  have hsorted : ((ranked m ws).map Prod.fst).Pairwise fun a b => b ≤ a := by
    rw [List.pairwise_map]
    exact ranked_sorted.imp fun h => by omega
  have hlt : ∀ r ∈ (ranked m ws).map Prod.fst, r < ws.sum := fun r hr => by
    rw [(ranked_perm.map Prod.fst).mem_iff, map_fst_rests] at hr
    obtain ⟨w, -, rfl⟩ := List.mem_map.1 hr
    exact Nat.mod_lt _ hpos
  obtain ⟨hlen, htake⟩ := take_pos hsorted hlt (leftover m ws) (sum_rests hpos).ge hpos
  rw [List.length_map] at hlen
  refine ⟨hlen, fun r hr => htake r.1 ?_⟩
  rw [← List.map_take]
  exact List.mem_map_of_mem hr

theorem getElem?_apportion {i w : ℕ} (h : ws[i]? = some w) :
    (apportion m ws)[i]? = some (m * w / ws.sum + if i ∈ extras m ws then 1 else 0) := by
  rw [apportion, getElem?_give extras_nodup, shares, List.getElem?_map, h]
  rfl

/-- **The units left over go to the largest remainders.** -/
theorem apportion_split (hpos : 0 < ws.sum) : Split m ws (apportion m ws) where
  length := by rw [apportion, length_give, shares, List.length_map]
  sum := by
    have hlen : (extras m ws).length = leftover m ws := by
      rw [extras, List.length_map, List.length_take]
      exact Nat.min_eq_left (ranked_take_pos hpos).1
    rw [apportion, sum_give fun i hi => by rw [shares, List.length_map]; exact lt_of_mem_extras hi, hlen, leftover]
    have := shares_sum_le (m := m) hpos
    omega
  near {i w p} hw hp := by
    rw [getElem?_apportion hw] at hp
    cases hp
    by_cases hi : i ∈ extras m ws
    · rw [if_pos hi]
      obtain ⟨⟨r, j⟩, hr, rfl⟩ := List.mem_map.1 hi
      obtain ⟨w', hw', rfl⟩ := mem_rests.1 (ranked_perm.mem_iff.1 (List.mem_of_mem_take hr))
      obtain rfl : w' = w := Option.some.inj (hw'.symm.trans hw)
      exact .inr ⟨rfl, (ranked_take_pos hpos).2 _ hr⟩
    · rw [if_neg hi]
      exact .inl rfl
  largest {i j w v p q} hw hp hv hq hextra hnone := by
    rw [getElem?_apportion hw] at hp
    rw [getElem?_apportion hv] at hq
    cases hp
    cases hq
    have hi : i ∈ extras m ws := by
      by_contra hi
      rw [if_neg hi] at hextra
      exact hextra rfl
    have hj : j ∉ extras m ws := fun hj => by
      rw [if_pos hj] at hnone
      omega
    obtain ⟨⟨r, i'⟩, hr, rfl⟩ := List.mem_map.1 hi
    obtain ⟨w', hw', rfl⟩ := mem_rests.1 (ranked_perm.mem_iff.1 (List.mem_of_mem_take hr))
    obtain rfl : w' = w := Option.some.inj (hw'.symm.trans hw)
    have hmem : (m * v % ws.sum, j) ∈ ranked m ws := ranked_perm.mem_iff.2 (mem_rests.2 ⟨v, hv, rfl⟩)
    have hsplit := hmem
    rw [← List.take_append_drop (leftover m ws) (ranked m ws)] at hsplit
    have hdrop : (m * v % ws.sum, j) ∈ (ranked m ws).drop (leftover m ws) :=
      (List.mem_append.1 hsplit).resolve_left fun h => hj (List.mem_map.2 ⟨_, h, rfl⟩)
    have hpair : (ranked m ws).Pairwise fun a b => b.1 < a.1 ∨ a.1 = b.1 ∧ a.2 ≤ b.2 := ranked_sorted
    rw [← List.take_append_drop (leftover m ws) (ranked m ws), List.pairwise_append] at hpair
    rcases hpair.2.2 _ hr _ hdrop with hlt | ⟨heq, hle⟩
    · exact .inl hlt
    · refine .inr ⟨heq.symm, lt_of_le_of_ne hle fun hij => hj ?_⟩
      rwa [← hij]

theorem Split.zero (h : Split m ws parts) {i p : ℕ} (hw : ws[i]? = some 0) (hp : parts[i]? = some p) : p = 0 := by
  have hnear := h.near hw hp
  simp only [Nat.mul_zero, Nat.zero_div, Nat.zero_mod, lt_irrefl, and_false, or_false] at hnear
  exact hnear

/-! ## One part takes the whole -/

theorem add_le_sum {l : List ℕ} {i j p q : ℕ} (hp : l[i]? = some p) (hq : l[j]? = some q) (hij : i ≠ j) :
    p + q ≤ l.sum := by
  induction l generalizing i j with
  | nil => simp at hp
  | cons x l ih =>
    cases i with
    | zero =>
      cases j with
      | zero => exact absurd rfl hij
      | succ j =>
        obtain rfl : x = p := by simpa using hp
        have hmem := List.le_sum_of_mem (List.mem_of_getElem? (by simpa using hq : l[j]? = some q))
        rw [List.sum_cons]
        omega
    | succ i =>
      cases j with
      | zero =>
        obtain rfl : x = q := by simpa using hq
        have hmem := List.le_sum_of_mem (List.mem_of_getElem? (by simpa using hp : l[i]? = some p))
        rw [List.sum_cons]
        omega
      | succ j =>
        have hrest := ih (by simpa using hp) (by simpa using hq) fun h => hij (by rw [h])
        rw [List.sum_cons]
        omega

theorem sum_eq_of_others {l : List ℕ} {i p : ℕ} (hp : l[i]? = some p)
    (hzero : ∀ j q, j ≠ i → l[j]? = some q → q = 0) : l.sum = p := by
  induction l generalizing i with
  | nil => simp at hp
  | cons x l ih =>
    cases i with
    | zero =>
      obtain rfl : x = p := by simpa using hp
      have hrest : l.sum = 0 := List.sum_eq_zero fun q hq => by
        obtain ⟨j, hj⟩ := List.getElem?_of_mem hq
        exact hzero (j + 1) q (by omega) (by simpa using hj)
      rw [List.sum_cons, hrest, Nat.add_zero]
    | succ i =>
      have hx : x = 0 := hzero 0 x (by omega) rfl
      rw [List.sum_cons, hx, Nat.zero_add]
      exact ih (by simpa using hp) fun j q hj hq => hzero (j + 1) q (by omega) (by simpa using hq)

theorem filter_eq_nil_of_sum {l : List ℕ} (h : l.sum = 0) : l.filter (· ≠ 0) = [] := by
  refine List.filter_eq_nil_iff.2 fun x hx => ?_
  have := List.le_sum_of_mem hx
  have : x = 0 := by omega
  simp [this]

theorem filter_eq_one_of_sum {l : List ℕ} (h : l.sum = 1) : l.filter (· ≠ 0) = [1] := by
  induction l with
  | nil => cases h
  | cons x l ih =>
    rw [List.sum_cons] at h
    cases x with
    | zero =>
      rw [List.filter_cons_of_neg (by simp), ih (by omega)]
    | succ x =>
      obtain rfl : x = 0 := by omega
      rw [List.filter_cons_of_pos (by simp), filter_eq_nil_of_sum (by omega)]

theorem sum_eq_zero_of_forall {l : List ℕ} (h : ∀ x ∈ l, ¬ decide (x ≠ 0) = true) : l.sum = 0 :=
  List.sum_eq_zero fun x hx => by simpa using h x hx

theorem getElem?_of_ne {a b : List ℕ} {w k v : ℕ} (h : (a ++ w :: b)[k]? = some v) (hk : k ≠ a.length) :
    v ∈ a ∨ a.length < k ∧ b[k - (a.length + 1)]? = some v := by
  rcases Nat.lt_or_gt_of_ne hk with hlt | hgt
  · rw [List.getElem?_append_left hlt] at h
    exact .inl (List.mem_of_getElem? h)
  · obtain ⟨n, rfl⟩ : ∃ n, k = a.length + 1 + n := ⟨k - (a.length + 1), by omega⟩
    rw [List.getElem?_append_right (by omega), show a.length + 1 + n - a.length = n + 1 by omega,
      List.getElem?_cons_succ] at h
    exact .inr ⟨by omega, by rwa [Nat.add_sub_cancel_left]⟩

/-- A part is the whole exactly when it has the only weight, or nearly all of it and the tie. -/
theorem Split.whole_iff (h : Split m ws parts) (hm : 2 ≤ m) (hlt : ∀ w ∈ ws, w < 2 * m) (hpos : 0 < ws.sum) :
    m ∈ parts ↔ (ws.filter (· ≠ 0)).length = 1 ∨ ws.filter (· ≠ 0) = [2 * m - 1, 1] := by
  constructor
  · intro hmem
    obtain ⟨i, hi⟩ := List.getElem?_of_mem hmem
    have hilt : i < ws.length := by
      rw [← h.length]
      exact (List.getElem?_eq_some_iff.1 hi).1
    have hw : ws[i]? = some ws[i] := List.getElem?_eq_getElem hilt
    have hothers : ∀ j q, j ≠ i → parts[j]? = some q → q = 0 := fun j q hj hq => by
      have hle := add_le_sum hi hq (Ne.symm hj)
      rw [h.sum] at hle
      omega
    have hsplit : ws = ws.take i ++ ws[i] :: ws.drop (i + 1) := by
      rw [← List.drop_eq_getElem_cons hilt, List.take_append_drop]
    have htotal : ws.sum = ws[i] + ((ws.take i).sum + (ws.drop (i + 1)).sum) := by
      conv_lhs => rw [hsplit]
      rw [List.sum_append, List.sum_cons]
      omega
    have hwlt := hlt _ (List.getElem_mem hilt)
    revert hwlt htotal hsplit hw
    generalize ws[i] = w
    intro hw hsplit htotal hwlt
    have hfilter : ws.filter (· ≠ 0) =
        (ws.take i).filter (· ≠ 0) ++ (w :: ws.drop (i + 1)).filter (· ≠ 0) := by
      conv_lhs => rw [hsplit]
      rw [List.filter_append]
    rcases h.near hw hi with hshare | ⟨hshare, hrest⟩
    · -- the share itself: there is no other weight
      have hle := Nat.div_mul_le_self (m * w) ws.sum
      rw [← hshare] at hle
      have hw' : ws.sum ≤ w := Nat.le_of_mul_le_mul_left hle (by omega)
      left
      rw [hfilter, filter_eq_nil_of_sum (by omega), List.filter_cons_of_pos (by simp; omega),
        filter_eq_nil_of_sum (by omega)]
      rfl
    · -- one unit more than the share: the others come to one, and lose the tie
      have hdiv := Nat.div_add_mod (m * w) ws.sum
      have hmod := Nat.mod_lt (m * w) hpos
      obtain ⟨k, rfl⟩ : ∃ k, m = k + 1 := ⟨m - 1, by omega⟩
      have hk : (k + 1) * w / ws.sum = k := by omega
      generalize hr : (ws.take i).sum + (ws.drop (i + 1)).sum = r at htotal
      have hrpos : 0 < r := by
        by_contra hr0
        have hsum : ws.sum = w := by omega
        rw [hsum, Nat.mul_mod_left] at hrest
        omega
      have hrem : w = (k + 1) * w % ws.sum + k * r := by
        have hleft : (k + 1) * w = w * k + w := by ring
        have hright : ws.sum * k = w * k + k * r := by
          rw [htotal]
          ring
        rw [hk] at hdiv
        omega
      obtain ⟨j, v, hij, hv, hvpos⟩ : ∃ j v, j ≠ i ∧ ws[j]? = some v ∧ 0 < v := by
        by_contra hnone
        have hsum : ws.sum = w := sum_eq_of_others hw fun j q hj hq => by
          by_contra hq0
          exact hnone ⟨j, q, hj, hq, Nat.pos_of_ne_zero hq0⟩
        omega
      have hjlt : j < parts.length := by
        rw [h.length]
        exact (List.getElem?_eq_some_iff.1 hv).1
      have hq : parts[j]? = some 0 := by
        rw [List.getElem?_eq_getElem hjlt, hothers j _ hij (List.getElem?_eq_getElem hjlt)]
      have hvshare : (k + 1) * v / ws.sum = 0 := by
        rcases h.near hv hq with h0 | ⟨h0, -⟩
        · exact h0.symm
        · exact absurd h0.symm (Nat.succ_ne_zero _)
      have hvrest : (k + 1) * v % ws.sum = (k + 1) * v :=
        Nat.mod_eq_of_lt ((Nat.div_eq_zero_iff_lt hpos).1 hvshare)
      have hlargest := h.largest hw hi hv hq (by rw [hk]; omega) hvshare.symm
      rw [hvrest] at hlargest
      have hv1 : (k + 1) * 1 ≤ (k + 1) * v := Nat.mul_le_mul_left _ hvpos
      have hr1 : r = 1 := by
        by_contra hr1
        have hr2 : k * 2 ≤ k * r := Nat.mul_le_mul_left _ (by omega)
        omega
      rw [hr1] at hrem hr
      have hle := add_le_sum hw hv (Ne.symm hij)
      obtain rfl : v = 1 := by omega
      have hlt' : i < j := by omega
      have hdrop : 1 ≤ (ws.drop (i + 1)).sum := List.le_sum_of_mem (List.mem_of_getElem? (i := j - (i + 1)) <| by
        rw [List.getElem?_drop, Nat.add_sub_cancel' (by omega)]
        exact hv)
      right
      rw [hfilter, filter_eq_nil_of_sum (by omega), List.filter_cons_of_pos (by simp; omega),
        filter_eq_one_of_sum (by omega), List.nil_append]
      congr 1
      omega
  · rintro (hone | htwo)
    · obtain ⟨w, hw⟩ := List.length_eq_one_iff.1 hone
      obtain ⟨a, b, rfl, ha, hwpos, hb⟩ := List.filter_eq_cons_iff.1 hw
      have hwi : (a ++ w :: b)[a.length]? = some w := by simp
      have hilt : a.length < parts.length := by
        rw [h.length]
        simp
      have hsum : (a ++ w :: b).sum = w := by
        rw [List.sum_append, List.sum_cons, sum_eq_zero_of_forall ha, sum_eq_zero_of_forall (List.filter_eq_nil_iff.1 hb)]
        omega
      have hnear := h.near hwi (List.getElem?_eq_getElem hilt)
      rw [hsum] at hpos hnear
      rw [Nat.mul_div_cancel _ hpos, Nat.mul_mod_left] at hnear
      obtain hpart : parts[a.length] = m := by omega
      rw [← hpart]
      exact List.getElem_mem hilt
    · obtain ⟨a, l, rfl, ha, -, hl⟩ := List.filter_eq_cons_iff.1 htwo
      obtain ⟨b, c, rfl, hb, -, hc⟩ := List.filter_eq_cons_iff.1 hl
      have hwi : (a ++ (2 * m - 1) :: (b ++ 1 :: c))[a.length]? = some (2 * m - 1) := by simp
      have hwj : (a ++ (2 * m - 1) :: (b ++ 1 :: c))[a.length + 1 + b.length]? = some 1 := by
        rw [List.getElem?_append_right (by omega), show a.length + 1 + b.length - a.length = b.length + 1 by omega,
          List.getElem?_cons_succ, List.getElem?_append_right (by omega), Nat.sub_self]
        rfl
      have hzero : ∀ k v, k ≠ a.length → k ≠ a.length + 1 + b.length →
          (a ++ (2 * m - 1) :: (b ++ 1 :: c))[k]? = some v → v = 0 := fun k v hki hkj hv => by
        have hz : ∀ {l : List ℕ}, (∀ x ∈ l, ¬ decide (x ≠ 0) = true) → v ∈ l → v = 0 := fun h hv => by
          simpa using h v hv
        rcases getElem?_of_ne hv hki with hv | ⟨hgt, hv⟩
        · exact hz ha hv
        · rcases getElem?_of_ne hv (by omega) with hv | ⟨-, hv⟩
          · exact hz hb hv
          · exact hz (List.filter_eq_nil_iff.1 hc) (List.mem_of_getElem? hv)
      have hsum : (a ++ (2 * m - 1) :: (b ++ 1 :: c)).sum = 2 * m := by
        rw [List.sum_append, List.sum_cons, List.sum_append, List.sum_cons, sum_eq_zero_of_forall ha,
          sum_eq_zero_of_forall hb, sum_eq_zero_of_forall (List.filter_eq_nil_iff.1 hc)]
        omega
      generalize hi : a.length = i at hwi hwj hzero
      generalize hj : i + 1 + b.length = j at hwj hzero
      generalize a ++ (2 * m - 1) :: (b ++ 1 :: c) = ws at h hwi hwj hzero hsum
      obtain ⟨k, rfl⟩ : ∃ k, m = k + 1 := ⟨m - 1, by omega⟩
      -- both remainders are half of the total, so the first of the two gets the unit
      have hproduct : (k + 1) * (2 * (k + 1) - 1) = k * (2 * (k + 1)) + (k + 1) := by
        rw [show 2 * (k + 1) - 1 = 2 * k + 1 by omega]
        ring
      have hlt : k + 1 < 2 * (k + 1) := by omega
      have hshare : (k + 1) * (2 * (k + 1) - 1) / ws.sum = k := by
        rw [hsum, hproduct, Nat.add_comm, Nat.add_mul_div_right _ _ (by omega), Nat.div_eq_of_lt hlt, Nat.zero_add]
      have hrest : (k + 1) * (2 * (k + 1) - 1) % ws.sum = k + 1 := by
        rw [hsum, hproduct, Nat.add_comm, Nat.add_mul_mod_self_right, Nat.mod_eq_of_lt hlt]
      have hshare' : (k + 1) * 1 / ws.sum = 0 := by rw [hsum, Nat.mul_one, Nat.div_eq_of_lt hlt]
      have hrest' : (k + 1) * 1 % ws.sum = k + 1 := by rw [hsum, Nat.mul_one, Nat.mod_eq_of_lt hlt]
      have hpart : ∀ {n w : ℕ}, ws[n]? = some w → ∃ p, parts[n]? = some p := fun {n w} hw => by
        have hn : n < parts.length := h.length ▸ (List.getElem?_eq_some_iff.1 hw).1
        exact ⟨parts[n], List.getElem?_eq_getElem hn⟩
      obtain ⟨p, hp⟩ := hpart hwi
      obtain ⟨q, hq⟩ := hpart hwj
      rcases h.near hwi hp with hnear | ⟨hnear, -⟩
      · rw [hshare] at hnear
        have hq0 : q ≠ 0 := fun hq0 => by
          have hall : parts.sum = p := sum_eq_of_others hp fun n x hn hx => by
            by_cases hnj : n = j
            · rw [hnj, hq, Option.some.injEq] at hx
              omega
            · have hnlt : n < ws.length := h.length ▸ (List.getElem?_eq_some_iff.1 hx).1
              have hwn := List.getElem?_eq_getElem hnlt
              rw [hzero n _ hn hnj hwn] at hwn
              exact h.zero hwn hx
          rw [h.sum] at hall
          omega
        have hlargest := h.largest hwj hq hwi hp (by rw [hshare']; exact hq0) (by rw [hshare]; exact hnear)
        rw [hrest, hrest'] at hlargest
        omega
      · rw [hshare] at hnear
        rw [← hnear]
        exact List.mem_of_getElem? hp

end DoubleEntry.Core
