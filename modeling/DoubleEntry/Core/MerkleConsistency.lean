import DoubleEntry.Core.MerkleTree

/-!
# Consistency of Merkle trees

That the tree over the first `m` leaves is a prefix of the tree over all of
them (RFC 6962).

* `subproof`: the prover's recursion over the split. The tree of the first `m`
  leaves ends in a perfect subtree, `seed`; the siblings from it up to the root
  are `trail`, and the proof is the trail, with the seed in front unless the
  first `m` leaves are one perfect subtree (`Trail.subproof_of_pow`).
* `climbBoth`: the verifier's walk, which rebuilds both roots at once. From the
  seed, the trail leads to both (`Trail.climbBoth_eq`).
* The way of a walk depends on the positions alone, so two walks that end at the
  top with one value went through the same siblings from the same start, if
  `node` is injective (`walk_inj`). An accepted proof is the honest one.
-/
namespace DoubleEntry.Core

/-- Shifts both positions right while the first is odd. -/
def stripOnes : Nat → Nat → Nat → Nat × Nat
  | 0, f, s => (f, s)
  | fuel + 1, f, s => if f % 2 = 1 then stripOnes fuel (f / 2) (s / 2) else (f, s)

/-- Exactly `q` ones at the end. -/
theorem stripOnes_eq : ∀ {q fuel f s : Nat}, q ≤ fuel → f % 2 ^ q = 2 ^ q - 1 → f / 2 ^ q % 2 = 0 →
    stripOnes fuel f s = (f / 2 ^ q, s / 2 ^ q)
  | 0, fuel, f, s, _, _, h => by
    rw [pow_zero, Nat.div_one] at h
    cases fuel with
    | zero => simp [stripOnes]
    | succ fuel => simp [stripOnes, h]
  | q + 1, 0, f, s, h, _, _ => by omega
  | q + 1, fuel + 1, f, s, hq, hf, h => by
    have e : (2 : Nat) ^ (q + 1) = 2 * 2 ^ q := by rw [pow_succ, Nat.mul_comm]
    have hp := Nat.two_pow_pos q
    have hmod : f % (2 * 2 ^ q) = f % 2 + 2 * (f / 2 % 2 ^ q) := Nat.mod_mul
    rw [e, hmod] at hf
    have hlt := Nat.mod_lt (f / 2) hp
    have hodd : f % 2 = 1 := by omega
    rw [stripOnes, if_pos hodd, stripOnes_eq (q := q) (by omega) (by omega)]
    · rw [e, Nat.div_div_eq_div_mul, Nat.div_div_eq_div_mul]
    · rw [Nat.div_div_eq_div_mul, ← e]
      exact h

namespace TreeHash

variable {α H : Type} (T : TreeHash α H)

/-! ## The prover -/

def subproofFuel : Nat → Nat → List α → Bool → List H
  | 0, _, _, _ => []
  | fuel + 1, m, l, b =>
    if m = l.length then if b then [] else [T.mth l]
    else if m ≤ splitPoint l.length then
      subproofFuel fuel m (l.take (splitPoint l.length)) b ++ [T.mth (l.drop (splitPoint l.length))]
    else
      subproofFuel fuel (m - splitPoint l.length) (l.drop (splitPoint l.length)) false ++
        [T.mth (l.take (splitPoint l.length))]

/-- What relates the tree of the first `m` leaves to that of all; `b` says that
the verifier holds the former. -/
def subproof (m : Nat) (l : List α) (b : Bool) : List H := T.subproofFuel l.length m l b

variable {T}

theorem subproofFuel_eq (l : List α) : ∀ {fuel m : Nat} {b : Bool}, 0 < m → m ≤ l.length → l.length ≤ fuel →
    T.subproofFuel fuel m l b = T.subproof m l b := by
  induction l using split_induction with
  | nil =>
    intro fuel m b h0 hm _
    simp at hm
    omega
  | single a =>
    intro fuel m b h0 hm hf
    obtain rfl : m = 1 := by simp at hm; omega
    cases fuel with
    | zero => simp at hf
    | succ fuel => simp [subproof, subproofFuel]
  | split l h2 iht ihd =>
    obtain ⟨hs0, hs1⟩ := splitPoint_pos h2
    have step : ∀ {fuel fuel' m : Nat} {b : Bool}, 0 < m → m ≤ l.length → l.length ≤ fuel + 1 → l.length ≤ fuel' + 1 →
        T.subproofFuel (fuel + 1) m l b = T.subproofFuel (fuel' + 1) m l b := by
      intro fuel fuel' m b h0 hm hf hf'
      rw [subproofFuel, subproofFuel]
      split
      · rfl
      · split
        · rw [iht h0 (by rw [List.length_take]; omega) (by rw [List.length_take]; omega),
            iht h0 (by rw [List.length_take]; omega) (by rw [List.length_take]; omega)]
        · rw [ihd (by omega) (by rw [List.length_drop]; omega) (by rw [List.length_drop]; omega),
            ihd (by omega) (by rw [List.length_drop]; omega) (by rw [List.length_drop]; omega)]
    intro fuel m b h0 hm hf
    obtain ⟨n, hn⟩ : ∃ n, l.length = n + 1 := ⟨l.length - 1, by omega⟩
    cases fuel with
    | zero => omega
    | succ fuel =>
      have e : T.subproof m l b = T.subproofFuel (n + 1) m l b := by rw [← hn]; rfl
      rw [e]
      exact step h0 hm hf (by omega)

theorem subproof_whole {l : List α} {b : Bool} (h : 0 < l.length) :
    T.subproof l.length l b = if b then [] else [T.mth l] := by
  obtain ⟨n, hn⟩ : ∃ n, l.length = n + 1 := ⟨l.length - 1, by omega⟩
  have e : T.subproof l.length l b = T.subproofFuel (n + 1) l.length l b := by rw [← hn]; rfl
  rw [e, subproofFuel, if_pos rfl]

theorem subproof_left {l : List α} {m : Nat} {b : Bool} (h2 : 2 ≤ l.length) (h0 : 0 < m)
    (hm : m ≤ splitPoint l.length) :
    T.subproof m l b = T.subproof m (l.take (splitPoint l.length)) b ++ [T.mth (l.drop (splitPoint l.length))] := by
  obtain ⟨hs0, hs1⟩ := splitPoint_pos h2
  obtain ⟨n, hn⟩ : ∃ n, l.length = n + 1 := ⟨l.length - 1, by omega⟩
  have e : T.subproof m l b = T.subproofFuel (n + 1) m l b := by rw [← hn]; rfl
  rw [e, subproofFuel, if_neg (by omega), if_pos hm,
    subproofFuel_eq _ h0 (by rw [List.length_take]; omega) (by rw [List.length_take]; omega)]

theorem subproof_right {l : List α} {m : Nat} {b : Bool} (h2 : 2 ≤ l.length) (hm : splitPoint l.length < m)
    (hlt : m < l.length) : T.subproof m l b =
      T.subproof (m - splitPoint l.length) (l.drop (splitPoint l.length)) false ++
        [T.mth (l.take (splitPoint l.length))] := by
  obtain ⟨hs0, hs1⟩ := splitPoint_pos h2
  obtain ⟨n, hn⟩ : ∃ n, l.length = n + 1 := ⟨l.length - 1, by omega⟩
  have e : T.subproof m l b = T.subproofFuel (n + 1) m l b := by rw [← hn]; rfl
  rw [e, subproofFuel, if_neg (by omega), if_neg (by omega),
    subproofFuel_eq _ (by omega) (by rw [List.length_drop]; omega) (by rw [List.length_drop]; omega)]

/-- From the perfect subtree `x` that the first `m` leaves end in, the siblings
up to the root. -/
inductive Trail : Nat → List α → H → List H → Prop
  | whole {l : List α} (h : 0 < l.length) : Trail l.length l (T.mth l) []
  | left {l : List α} {m : Nat} {x : H} {ps : List H} (h2 : 2 ≤ l.length) (hm : m ≤ splitPoint l.length)
      (below : Trail m (l.take (splitPoint l.length)) x ps) :
      Trail m l x (ps ++ [T.mth (l.drop (splitPoint l.length))])
  | right {l : List α} {m : Nat} {x : H} {ps : List H} (h2 : 2 ≤ l.length) (hm : splitPoint l.length < m)
      (hlt : m < l.length) (below : Trail (m - splitPoint l.length) (l.drop (splitPoint l.length)) x ps) :
      Trail m l x (ps ++ [T.mth (l.take (splitPoint l.length))])

theorem Trail.pos {l : List α} {m : Nat} {x : H} {ps : List H} (h : T.Trail m l x ps) : 0 < m := by
  induction h with
  | whole h => exact h
  | left _ _ _ ih => exact ih
  | right _ hm _ _ _ => omega

theorem exists_trail (l : List α) : ∀ {m : Nat}, 0 < m → m ≤ l.length → ∃ x ps, T.Trail m l x ps := by
  induction l using split_induction with
  | nil => intro m h0 hm; simp at hm; omega
  | single a =>
    intro m h0 hm
    obtain rfl : m = [a].length := by simp at hm ⊢; omega
    exact ⟨_, _, .whole (by simp)⟩
  | split l h2 iht ihd =>
    intro m h0 hm
    by_cases hw : m = l.length
    · subst hw
      exact ⟨_, _, .whole (by omega)⟩
    · by_cases hk : m ≤ splitPoint l.length
      · obtain ⟨x, ps, h⟩ := iht h0 (by rw [List.length_take]; omega)
        exact ⟨x, _, .left h2 hk h⟩
      · obtain ⟨x, ps, h⟩ := ihd (m := m - splitPoint l.length) (by omega) (by rw [List.length_drop]; omega)
        exact ⟨x, _, .right h2 (by omega) (by omega) h⟩

theorem Trail.subproof_false {l : List α} {m : Nat} {x : H} {ps : List H} (h : T.Trail m l x ps) :
    T.subproof m l false = x :: ps := by
  induction h with
  | whole h => simp [subproof_whole h]
  | left h2 hm below ih => rw [subproof_left h2 below.pos hm, ih, List.cons_append]
  | right h2 hm hlt below ih => rw [subproof_right h2 hm hlt, ih, List.cons_append]

/-- A power of two is no more than the split, or all there is. -/
theorem le_splitPoint_of_two_pow {n q : Nat} (h2 : 2 ≤ n) (h : 2 ^ q < n) : 2 ^ q ≤ splitPoint n := by
  obtain ⟨k, e, h1, h3⟩ := exists_splitPoint h2
  rw [e]
  refine Nat.pow_le_pow_right (by omega) ?_
  have : 2 ^ q < 2 ^ (k + 1) := by omega
  have := (Nat.pow_lt_pow_iff_right (by omega : 1 < 2)).1 this
  omega

theorem Trail.subproof_of_pow {l : List α} {m : Nat} {x : H} {ps : List H} (h : T.Trail m l x ps)
    (hp : m.isPowerOfTwo) : T.subproof m l true = ps ∧ x = T.mth (l.take m) := by
  induction h with
  | whole h => simp [subproof_whole h]
  | @left l m x ps h2 hm below ih =>
    obtain ⟨hp, hx⟩ := ih hp
    rw [subproof_left h2 below.pos hm, hp, hx, List.take_take, min_eq_left hm]
    exact ⟨rfl, rfl⟩
  | @right l m x ps h2 hm hlt below ih =>
    obtain ⟨q, rfl⟩ := hp
    have := le_splitPoint_of_two_pow h2 hlt
    omega

theorem Trail.subproof_of_not_pow {l : List α} {m : Nat} {x : H} {ps : List H} (h : T.Trail m l x ps)
    (hp : ¬ m.isPowerOfTwo) (hl : m < l.length ∨ l.length.isPowerOfTwo) : T.subproof m l true = x :: ps := by
  induction h with
  | @whole l h => exact absurd (hl.resolve_left (lt_irrefl _)) hp
  | @left l m x ps h2 hm below ih =>
    obtain ⟨q, e, h1, -⟩ := exists_splitPoint h2
    have hlen : (l.take (splitPoint l.length)).length = 2 ^ q := by rw [List.length_take]; omega
    rw [subproof_left h2 below.pos hm, ih hp (.inr ⟨q, hlen⟩), List.cons_append]
  | @right l m x ps h2 hm hlt below ih => rw [subproof_right h2 hm hlt, below.subproof_false, List.cons_append]

/-! ## The verifier's walk -/

/-- Rebuilds both roots: a sibling from the left belongs to both trees, one from
the right to the later one only. -/
abbrev climbBoth (T : TreeHash α H) (ps : List H) (f s : Nat) (acc : H × H) : Option (Nat × Nat × H × H) :=
  climb (fun p x => (T.node p x.1, T.node p x.2)) (fun x p => (x.1, T.node x.2 p)) ps f s acc

theorem climbBoth_right {f s : Nat} {x y p : H} (hf : f % 2 = 0) (hfs : f < s) :
    T.climbBoth [p] f s (x, y) = some (f / 2, s / 2, x, T.node y p) := by
  simp only [climbBoth, climb]
  rw [if_neg (by omega), if_neg (by omega)]

theorem climbBoth_left_odd {f s : Nat} {x y p : H} (hf : f % 2 = 1) (hfs : f ≤ s) :
    T.climbBoth [p] f s (x, y) = some (f / 2, s / 2, T.node p x, T.node p y) := by
  simp only [climbBoth, climb]
  rw [if_neg (by omega), if_pos (.inl hf), stripZeros_odd hf]

theorem climbBoth_left_edge {b r : Nat} {x y p : H} (hb : b % 2 = 1) :
    T.climbBoth [p] (b * 2 ^ r) (b * 2 ^ r) (x, y) = some (b / 2, b / 2, T.node p x, T.node p y) := by
  have hr : r < 2 ^ r := Nat.lt_two_pow_self
  have hle : 1 * 2 ^ r ≤ b * 2 ^ r := Nat.mul_le_mul_right _ (by omega)
  have hor : b * 2 ^ r % 2 = 1 ∨ b * 2 ^ r = b * 2 ^ r := .inr rfl
  rw [climbBoth, climb, if_neg (by omega), if_pos hor, stripZeros_mul hb (by omega), climb]

/-- The prefix that reaches into the right part. -/
theorem mth_take_right {l : List α} {m : Nat} (h2 : 2 ≤ l.length) (hm : splitPoint l.length < m) (hle : m ≤ l.length) :
    T.mth (l.take m) = T.node (T.mth (l.take (splitPoint l.length)))
      (T.mth ((l.drop (splitPoint l.length)).take (m - splitPoint l.length))) := by
  obtain ⟨q, e, h1, h3⟩ := exists_splitPoint h2
  have htake : l.take m = l.take (splitPoint l.length) ++ (l.drop (splitPoint l.length)).take (m - splitPoint l.length) := by
    rw [← List.take_add, Nat.add_sub_cancel' hm.le]
  rw [htake]
  refine T.mth_append (q := q) ?_ ?_ ?_
  · rw [List.length_take]; omega
  · rw [List.length_take, List.length_drop]; omega
  · rw [pow_succ] at h3
    rw [List.length_take, List.length_drop]
    omega

/-- A perfect subtree that does not reach the right edge: the trail ends at both
roots, `q` levels up. -/
theorem Trail.perfect {l : List α} {m : Nat} {x : H} {ps : List H} (h : T.Trail m l x ps) :
    ∀ {q f s : Nat}, l.length = 2 ^ q → f % 2 ^ q = m - 1 → (m = 2 ^ q → f / 2 ^ q % 2 = 0) →
      f / 2 ^ q < s / 2 ^ q →
      T.climbBoth ps (stripOnes f f s).1 (stripOnes f f s).2 (x, x) =
        some (f / 2 ^ q, s / 2 ^ q, T.mth (l.take m), T.mth l) := by
  induction h with
  | @whole l h =>
    intro q f s hl hf heven hfs
    have hq : q < 2 ^ q := Nat.lt_two_pow_self
    have hle := Nat.mod_le f (2 ^ q)
    rw [stripOnes_eq (q := q) (by omega) (by rw [hf, hl]) (heven hl), List.take_length]
    rfl
  | @left l m x ps h2 hm below ih =>
    intro q f s hl hf heven hfs
    cases q with
    | zero => rw [hl] at h2; simp at h2
    | succ q =>
      have hsplit : splitPoint l.length = 2 ^ q := by rw [hl, splitPoint_two_pow]
      rw [hsplit] at hm ih
      rw [hsplit]
      have hpos := below.pos
      obtain ⟨hev, hf'⟩ := left_half hf (by omega)
      have hlt : f / 2 ^ q < s / 2 ^ q := by
        rw [div_two_pow_succ, div_two_pow_succ] at hfs
        omega
      have hw := ih (q := q) (f := f) (s := s) (by rw [List.length_take]; omega) hf' (fun _ => hev) hlt
      rw [climbBoth, climb_append]
      simp only [climbBoth] at hw
      rw [hw, Option.bind_some, ← climbBoth, climbBoth_right hev hlt, div_two_pow_succ, div_two_pow_succ,
        T.mth_split h2, hsplit, List.take_take, min_eq_left hm]
  | @right l m x ps h2 hm hlt below ih =>
    intro q f s hl hf heven hfs
    cases q with
    | zero => rw [hl] at h2; simp at h2
    | succ q =>
      have hsplit : splitPoint l.length = 2 ^ q := by rw [hl, splitPoint_two_pow]
      obtain ⟨hodd, hrest⟩ := right_half hf (by omega)
      have hf' : f % 2 ^ q = m - splitPoint l.length - 1 := by omega
      have hlt' : f / 2 ^ q < s / 2 ^ q := by
        rw [div_two_pow_succ, div_two_pow_succ] at hfs
        omega
      have hw := ih (q := q) (f := f) (s := s) (by rw [List.length_drop]; omega) hf' (by omega) hlt'
      rw [climbBoth, climb_append]
      simp only [climbBoth] at hw
      rw [hw, Option.bind_some, ← climbBoth, climbBoth_left_odd hodd hlt'.le, div_two_pow_succ, div_two_pow_succ,
        T.mth_split h2, mth_take_right h2 hm hlt.le]

/-- A subtree on the right edge, `a` subtrees of `2 ^ j` leaves before it: the
trail ends on the edge, at both roots. -/
theorem Trail.edge {l : List α} {m : Nat} {x : H} {ps : List H} (h : T.Trail m l x ps) :
    ∀ {a j : Nat}, m < l.length → l.length ≤ 2 ^ j →
      ∃ r ≤ j, T.climbBoth ps (stripOnes (a * 2 ^ j + (m - 1)) (a * 2 ^ j + (m - 1)) (a * 2 ^ j + (l.length - 1))).1
          (stripOnes (a * 2 ^ j + (m - 1)) (a * 2 ^ j + (m - 1)) (a * 2 ^ j + (l.length - 1))).2 (x, x) =
        some (a * 2 ^ (j - r), a * 2 ^ (j - r), T.mth (l.take m), T.mth l) := by
  induction h with
  | whole h => intro a j hlt; exact absurd hlt (lt_irrefl _)
  | @left l m x ps h2 hm below ih =>
    intro a j hlt hj
    obtain ⟨q, hsplit, hq1, hq2⟩ := exists_splitPoint h2
    obtain ⟨d, rfl⟩ := exists_level hq1 hj
    have hpos := below.pos
    refine ⟨q + 1, by omega, ?_⟩
    rw [show q + 1 + d - (q + 1) = d by omega]
    have hf : (a * 2 ^ (q + 1 + d) + (m - 1)) / 2 ^ q = a * 2 ^ d * 2 := by
      rw [behind_div, Nat.div_eq_of_lt (by omega), Nat.add_zero]
    have hs : (a * 2 ^ (q + 1 + d) + (l.length - 1)) / 2 ^ q = a * 2 ^ d * 2 + 1 := by
      rw [behind_div, show (l.length - 1) / 2 ^ q = 1 from Nat.div_eq_of_lt_le (by omega) (by omega)]
    have hw := below.perfect (q := q) (f := a * 2 ^ (q + 1 + d) + (m - 1)) (s := a * 2 ^ (q + 1 + d) + (l.length - 1))
      (by rw [List.length_take]; omega) (by rw [behind_mod, Nat.mod_eq_of_lt (by omega)])
      (fun _ => by rw [hf]; omega) (by rw [hf, hs]; omega)
    rw [climbBoth, climb_append]
    simp only [climbBoth] at hw
    have hup : T.climbBoth [T.mth (l.drop (splitPoint l.length))] (a * 2 ^ d * 2) (a * 2 ^ d * 2 + 1)
        (T.mth ((l.take (splitPoint l.length)).take m), T.mth (l.take (splitPoint l.length))) =
        some (a * 2 ^ d * 2 / 2, (a * 2 ^ d * 2 + 1) / 2, T.mth ((l.take (splitPoint l.length)).take m),
          T.node (T.mth (l.take (splitPoint l.length))) (T.mth (l.drop (splitPoint l.length)))) :=
      climbBoth_right (by omega) (by omega)
    rw [hw, Option.bind_some, hf, hs]
    simp only [climbBoth] at hup
    rw [hup, T.mth_split h2, List.take_take, min_eq_left hm]
    simp only [Option.some.injEq, Prod.mk.injEq, and_true]
    omega
  | @right l m x ps h2 hm hlt below ih =>
    intro a j _ hj
    obtain ⟨q, hsplit, hq1, hq2⟩ := exists_splitPoint h2
    obtain ⟨d, rfl⟩ := exists_level hq1 hj
    refine ⟨q + 1, by omega, ?_⟩
    rw [show q + 1 + d - (q + 1) = d by omega]
    -- the right part lies behind an odd number of subtrees of `2 ^ q` leaves
    have ef := behind_right a d (show 2 ^ q ≤ m - 1 by omega)
    have es := behind_right a d (show 2 ^ q ≤ l.length - 1 by omega)
    have em : m - 1 - 2 ^ q = m - splitPoint l.length - 1 := by omega
    have elen : l.length - 1 - 2 ^ q = (l.drop (splitPoint l.length)).length - 1 := by
      rw [List.length_drop]
      omega
    obtain ⟨r, hr, hw⟩ := ih (a := a * 2 ^ d * 2 + 1) (j := q) (by rw [List.length_drop]; omega)
      (by rw [List.length_drop]; omega)
    rw [climbBoth, climb_append, ef, es, em, elen]
    simp only [climbBoth] at hw
    rw [hw, Option.bind_some, ← climbBoth, climbBoth_left_edge (by omega), T.mth_split h2,
      mth_take_right h2 hm hlt.le]
    simp only [Option.some.injEq, Prod.mk.injEq, and_true]
    omega

/-- **Completeness.** From the seed, the trail leads to both roots. -/
theorem Trail.climbBoth_eq {l : List α} {m : Nat} {x : H} {ps : List H} (h : T.Trail m l x ps) (hlt : m < l.length) :
    T.climbBoth ps (stripOnes (m - 1) (m - 1) (l.length - 1)).1 (stripOnes (m - 1) (m - 1) (l.length - 1)).2 (x, x) =
      some (0, 0, T.mth (l.take m), T.mth l) := by
  have hlen : l.length < 2 ^ l.length := Nat.lt_two_pow_self
  obtain ⟨r, -, hw⟩ := h.edge (a := 0) (j := l.length) hlt hlen.le
  simpa using hw

/-! ## Soundness -/

/-- Two walks to the top from one position: if they end in one value, they went
through the same siblings from the same start. -/
theorem walk_inj (hn : ∀ a b c d, T.node a b = T.node c d → a = c ∧ b = d) {ps : List H} :
    ∀ {qs : List H} {f s f₁ f₂ : Nat} {acc acc' r : H}, T.walk ps f s acc = some (f₁, 0, r) →
      T.walk qs f s acc' = some (f₂, 0, r) → ps = qs ∧ acc = acc' := by
  induction ps with
  | nil =>
    intro qs f s f₁ f₂ acc acc' r h h'
    obtain ⟨-, rfl, rfl⟩ : f = f₁ ∧ s = 0 ∧ acc = r := by simpa [walk, climb] using h
    cases qs with
    | nil =>
      obtain ⟨-, rfl⟩ : f = f₂ ∧ acc' = acc := by simpa [walk, climb] using h'
      exact ⟨rfl, rfl⟩
    | cons q qs => simp [walk, climb] at h'
  | cons p ps ih =>
    intro qs f s f₁ f₂ acc acc' r h h'
    have hs : s ≠ 0 := fun e => by simp [walk, climb, e] at h
    cases qs with
    | nil =>
      obtain ⟨-, rfl, -⟩ : f = f₂ ∧ s = 0 ∧ acc' = r := by simpa [walk, climb] using h'
      exact absurd rfl hs
    | cons q qs =>
      simp only [walk, climb, if_neg hs] at h h'
      split at h
      · rename_i hc
        rw [if_pos hc] at h'
        obtain ⟨rfl, he⟩ := ih h h'
        obtain ⟨rfl, rfl⟩ := hn _ _ _ _ he
        exact ⟨rfl, rfl⟩
      · rename_i hc
        rw [if_neg hc] at h'
        obtain ⟨rfl, he⟩ := ih h h'
        obtain ⟨rfl, rfl⟩ := hn _ _ _ _ he
        exact ⟨rfl, rfl⟩

/-- Lists of one length with one tree hash are equal. -/
theorem mth_inj (hl : ∀ a b, T.leaf a = T.leaf b → a = b) (hn : ∀ a b c d, T.node a b = T.node c d → a = c ∧ b = d)
    (l : List α) : ∀ {l' : List α}, l.length = l'.length → T.mth l = T.mth l' → l = l' := by
  induction l using split_induction with
  | nil =>
    intro l' hlen _
    exact (List.length_eq_zero_iff.1 hlen.symm).symm
  | single a =>
    intro l' hlen h
    obtain ⟨b, rfl⟩ := List.length_eq_one_iff.1 hlen.symm
    rw [mth_single, mth_single] at h
    rw [hl a b h]
  | split l h2 iht ihd =>
    intro l' hlen h
    have h2' : 2 ≤ l'.length := by omega
    rw [T.mth_split h2, T.mth_split h2', ← hlen] at h
    obtain ⟨hleft, hright⟩ := hn _ _ _ _ h
    have htake := iht (by simp [hlen]) hleft
    have hdrop := ihd (by simp [hlen]) hright
    rw [← List.take_append_drop (splitPoint l.length) l, htake, hdrop, List.take_append_drop]

/-- No two trees are hashed alike: leaves and nodes are told apart, from each other and
from the empty tree. -/
structure Separated (T : TreeHash α H) : Prop where
  leaf : ∀ a b, T.leaf a = T.leaf b → a = b
  node : ∀ a b c d, T.node a b = T.node c d → a = c ∧ b = d
  leaf_node : ∀ a b c, T.leaf a ≠ T.node b c
  leaf_empty : ∀ a, T.leaf a ≠ T.empty
  node_empty : ∀ a b, T.node a b ≠ T.empty

/-- **A tree hash determines its list**, whatever the length. -/
theorem Separated.mth_injective (hs : T.Separated) (l : List α) : ∀ {l' : List α}, T.mth l = T.mth l' → l = l' := by
  have cases3 : ∀ l' : List α, l' = [] ∨ (∃ b, l' = [b]) ∨ 2 ≤ l'.length := fun l' => by
    match l' with
    | [] => exact .inl rfl
    | [b] => exact .inr (.inl ⟨b, rfl⟩)
    | _ :: _ :: _ => exact .inr (.inr (by simp))
  induction l using split_induction with
  | nil =>
    intro l' h
    rcases cases3 l' with rfl | ⟨b, rfl⟩ | h2
    · rfl
    · rw [mth_single] at h
      exact absurd h.symm (hs.leaf_empty b)
    · rw [T.mth_split h2] at h
      exact absurd h.symm (hs.node_empty _ _)
  | single a =>
    intro l' h
    rw [mth_single] at h
    rcases cases3 l' with rfl | ⟨b, rfl⟩ | h2
    · exact absurd h (hs.leaf_empty a)
    · rw [mth_single] at h
      rw [hs.leaf a b h]
    · rw [T.mth_split h2] at h
      exact absurd h (hs.leaf_node _ _ _)
  | split l h2 iht ihd =>
    intro l' h
    rw [T.mth_split h2] at h
    rcases cases3 l' with rfl | ⟨b, rfl⟩ | h2'
    · exact absurd h (hs.node_empty _ _)
    · rw [mth_single] at h
      exact absurd h.symm (hs.leaf_node _ _ _)
    · rw [T.mth_split h2'] at h
      obtain ⟨hleft, hright⟩ := hs.node _ _ _ _ h
      rw [← List.take_append_drop (splitPoint l.length) l, iht hleft, ihd hright, List.take_append_drop]

/-- The later root of the double walk is the root of a single one. -/
theorem walk_of_climbBoth {ps : List H} : ∀ {f s f' s' : Nat} {x y x' y' : H},
    T.climbBoth ps f s (x, y) = some (f', s', x', y') → T.walk ps f s y = some (f', s', y') := by
  induction ps with
  | nil =>
    intro f s f' s' x y x' y' h
    simp only [climbBoth, climb, Option.some.injEq, Prod.mk.injEq] at h
    simp [walk, climb, h]
  | cons p ps ih =>
    intro f s f' s' x y x' y' h
    simp only [climbBoth, climb] at h
    split at h
    · cases h
    · rename_i hs
      split at h
      · rename_i hc
        simpa only [walk, climb, if_neg hs, if_pos hc] using ih h
      · rename_i hc
        simpa only [walk, climb, if_neg hs, if_neg hc] using ih h

end TreeHash

end DoubleEntry.Core
