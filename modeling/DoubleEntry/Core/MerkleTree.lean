import Mathlib

/-!
# Merkle trees over a list

The tree hash of a list (RFC 6962): empty, one leaf, or a node over the largest
power of two below the length and the rest. `TreeHash` gives the three hash
operations; nothing is assumed of them.

* `mth`: the recursive tree hash, and `auditPath`, the siblings of one leaf from
  the bottom up.
* `climb`: the verifier's walk up an audit path, steered by the leaf's position
  and the last position of the tree. From a leaf and its own path it ends at
  the root (`climb_auditPath`).
* `carry` and `peaksRoot`: the incremental form, a stack of perfect subtrees
  whose heights increase towards the bottom. `Peaks st l` says the stack covers
  `l`; pushing keeps it (`Peaks.push`), its root is `mth l` (`Peaks.root_eq`) and
  its heights are the binary digits of the length (`Peaks.heights_eq`).

The recursions on lists carry fuel so that they evaluate; the length is enough.
-/
namespace DoubleEntry.Core

/-! ## The split point -/

/-- Doubles `k` while twice `k` is below `n`. -/
def splitLoop : Nat → Nat → Nat → Nat
  | 0, _, k => k
  | fuel + 1, n, k => if k * 2 < n then splitLoop fuel n (k * 2) else k

/-- The largest power of two below `n`, for `n > 1`. -/
def splitPoint (n : Nat) : Nat := splitLoop n n 1

theorem splitLoop_eq {q : Nat} : ∀ {fuel n k : Nat}, k * 2 ^ q < n → n ≤ k * 2 ^ (q + 1) →
    q ≤ fuel → 0 < k → splitLoop fuel n k = k * 2 ^ q := by
  induction q with
  | zero =>
    intro fuel n k _ h2 _ _
    cases fuel with
    | zero => simp [splitLoop]
    | succ fuel =>
      have : ¬ k * 2 < n := by simpa using h2
      simp [splitLoop, this]
  | succ q ih =>
    intro fuel n k h1 h2 hf hk
    cases fuel with
    | zero => omega
    | succ fuel =>
      have e1 : k * 2 * 2 ^ q = k * 2 ^ (q + 1) := by rw [pow_succ]; ring
      have e2 : k * 2 * 2 ^ (q + 1) = k * 2 ^ (q + 1 + 1) := by rw [pow_succ 2 (q + 1)]; ring
      have hlt : k * 2 < n := by
        have : k * 2 * 1 ≤ k * 2 * 2 ^ q := Nat.mul_le_mul_left _ Nat.one_le_two_pow
        omega
      rw [splitLoop, if_pos hlt, ih (by omega) (by omega) (by omega) (by omega), e1]

/-- Exactly one power of two is below `n` and at least half of it. -/
theorem splitPoint_eq {n q : Nat} (h1 : 2 ^ q < n) (h2 : n ≤ 2 ^ (q + 1)) : splitPoint n = 2 ^ q := by
  have hq : q < 2 ^ q := Nat.lt_two_pow_self
  have loop : splitLoop n n 1 = 1 * 2 ^ q := splitLoop_eq (by omega) (by omega) (by omega) (by omega)
  rw [splitPoint, loop, one_mul]

theorem exists_splitPoint {n : Nat} (h : 2 ≤ n) :
    ∃ q, splitPoint n = 2 ^ q ∧ 2 ^ q < n ∧ n ≤ 2 ^ (q + 1) := by
  have h0 : n - 1 ≠ 0 := by omega
  have h1 := Nat.pow_log_le_self 2 h0
  have h2 := Nat.lt_pow_succ_log_self (b := 2) (by omega) (n - 1)
  refine ⟨Nat.log 2 (n - 1), splitPoint_eq ?_ ?_, ?_, ?_⟩ <;> omega

theorem splitPoint_pos {n : Nat} (h : 2 ≤ n) : 0 < splitPoint n ∧ splitPoint n < n := by
  obtain ⟨q, e, h1, -⟩ := exists_splitPoint h
  rw [e]
  exact ⟨Nat.two_pow_pos q, h1⟩

theorem splitPoint_two_pow (q : Nat) : splitPoint (2 ^ (q + 1)) = 2 ^ q :=
  splitPoint_eq (Nat.pow_lt_pow_right (by omega) (by omega)) le_rfl

/-! ## The tree hash -/

/-- The hash of the empty tree, of a leaf and of a node. -/
structure TreeHash (α H : Type) where
  empty : H
  leaf : α → H
  node : H → H → H

namespace TreeHash

variable {α H : Type} (T : TreeHash α H)

def mthFuel : Nat → List α → H
  | _, [] => T.empty
  | _, [a] => T.leaf a
  | 0, _ => T.empty
  | fuel + 1, l => T.node (mthFuel fuel (l.take (splitPoint l.length)))
      (mthFuel fuel (l.drop (splitPoint l.length)))

/-- The Merkle tree hash. -/
def mth (l : List α) : H := T.mthFuel l.length l

def auditPathFuel : Nat → Nat → List α → List H
  | 0, _, _ => []
  | fuel + 1, m, l =>
    if l.length ≤ 1 then []
    else if m < splitPoint l.length then
      auditPathFuel fuel m (l.take (splitPoint l.length)) ++ [T.mth (l.drop (splitPoint l.length))]
    else
      auditPathFuel fuel (m - splitPoint l.length) (l.drop (splitPoint l.length)) ++
        [T.mth (l.take (splitPoint l.length))]

/-- The siblings on the way from leaf `m` up to the root. -/
def auditPath (m : Nat) (l : List α) : List H := T.auditPathFuel l.length m l

/-- Lists by their split: the recursion of the tree. -/
theorem split_induction {P : List α → Prop} (nil : P []) (single : ∀ a, P [a])
    (split : ∀ l : List α, 2 ≤ l.length → P (l.take (splitPoint l.length)) →
      P (l.drop (splitPoint l.length)) → P l) (l : List α) : P l := by
  induction h : l.length using Nat.strong_induction_on generalizing l with
  | _ n ih =>
    match l, h with
    | [], _ => exact nil
    | [a], _ => exact single a
    | a :: b :: l, h =>
      have h2 : 2 ≤ (a :: b :: l).length := by simp
      obtain ⟨h0, h1⟩ := splitPoint_pos h2
      refine split _ h2 (ih _ ?_ _ rfl) (ih _ ?_ _ rfl)
      · rw [List.length_take]; omega
      · rw [List.length_drop]; omega

theorem mthFuel_succ {fuel : Nat} {l : List α} (h : 2 ≤ l.length) :
    T.mthFuel (fuel + 1) l = T.node (T.mthFuel fuel (l.take (splitPoint l.length)))
      (T.mthFuel fuel (l.drop (splitPoint l.length))) := by
  match l, h with
  | _ :: _ :: _, _ => rfl

theorem mthFuel_eq (l : List α) : ∀ fuel, l.length ≤ fuel → T.mthFuel fuel l = T.mth l := by
  induction l using split_induction with
  | nil => intro fuel _; cases fuel <;> rfl
  | single a => intro fuel _; cases fuel <;> rfl
  | split l h2 iht ihd =>
    have key : ∀ fuel, l.length ≤ fuel + 1 → T.mthFuel (fuel + 1) l =
        T.node (T.mth (l.take (splitPoint l.length))) (T.mth (l.drop (splitPoint l.length))) := by
      intro fuel hf
      obtain ⟨h0, h1⟩ := splitPoint_pos h2
      rw [T.mthFuel_succ h2, iht fuel (by rw [List.length_take]; omega),
        ihd fuel (by rw [List.length_drop]; omega)]
    intro fuel hf
    cases fuel with
    | zero => omega
    | succ fuel =>
      obtain ⟨n, hn⟩ : ∃ n, l.length = n + 1 := ⟨l.length - 1, by omega⟩
      have e : T.mth l = T.mthFuel (n + 1) l := by rw [← hn]; rfl
      rw [key fuel hf, e, key n (by omega)]

@[simp] theorem mth_nil : T.mth [] = T.empty := rfl

@[simp] theorem mth_single (a : α) : T.mth [a] = T.leaf a := rfl

theorem mth_split {l : List α} (h : 2 ≤ l.length) : T.mth l =
    T.node (T.mth (l.take (splitPoint l.length))) (T.mth (l.drop (splitPoint l.length))) := by
  obtain ⟨n, hn⟩ : ∃ n, l.length = n + 1 := ⟨l.length - 1, by omega⟩
  obtain ⟨h0, h1⟩ := splitPoint_pos h
  conv_lhs => rw [mth, hn, T.mthFuel_succ h]
  rw [T.mthFuel_eq _ n (by rw [List.length_take]; omega), T.mthFuel_eq _ n (by rw [List.length_drop]; omega)]

/-- A perfect left part and a nonempty right part no longer than it. -/
theorem mth_append {l r : List α} {q : Nat} (hl : l.length = 2 ^ q) (h0 : 0 < r.length)
    (h1 : r.length ≤ 2 ^ q) : T.mth (l ++ r) = T.node (T.mth l) (T.mth r) := by
  have hp := Nat.two_pow_pos q
  have hs : splitPoint (l ++ r).length = l.length := by
    rw [hl, splitPoint_eq] <;> rw [List.length_append, hl]
    · omega
    · rw [pow_succ]; omega
  rw [T.mth_split (by rw [List.length_append]; omega), hs, List.take_left, List.drop_left]

/-! ## Audit paths -/

theorem auditPathFuel_eq (l : List α) : ∀ fuel m, l.length ≤ fuel → T.auditPathFuel fuel m l = T.auditPath m l := by
  induction l using split_induction with
  | nil => intro fuel m _; cases fuel <;> rfl
  | single a => intro fuel m _; cases fuel <;> rfl
  | split l h2 iht ihd =>
    have key : ∀ fuel m, l.length ≤ fuel + 1 → T.auditPathFuel (fuel + 1) m l =
        if m < splitPoint l.length then
          T.auditPath m (l.take (splitPoint l.length)) ++ [T.mth (l.drop (splitPoint l.length))]
        else T.auditPath (m - splitPoint l.length) (l.drop (splitPoint l.length)) ++
          [T.mth (l.take (splitPoint l.length))] := by
      intro fuel m hf
      obtain ⟨h0, h1⟩ := splitPoint_pos h2
      rw [auditPathFuel, if_neg (by omega), iht fuel m (by rw [List.length_take]; omega),
        ihd fuel _ (by rw [List.length_drop]; omega)]
    intro fuel m hf
    cases fuel with
    | zero => omega
    | succ fuel =>
      obtain ⟨n, hn⟩ : ∃ n, l.length = n + 1 := ⟨l.length - 1, by omega⟩
      have e : T.auditPath m l = T.auditPathFuel (n + 1) m l := by rw [← hn]; rfl
      rw [key fuel m hf, e, key n m (by omega)]

@[simp] theorem auditPath_single (m : Nat) (a : α) : T.auditPath m [a] = [] := rfl

theorem auditPath_left {l : List α} {m : Nat} (h : 2 ≤ l.length) (hm : m < splitPoint l.length) :
    T.auditPath m l =
      T.auditPath m (l.take (splitPoint l.length)) ++ [T.mth (l.drop (splitPoint l.length))] := by
  obtain ⟨n, hn⟩ : ∃ n, l.length = n + 1 := ⟨l.length - 1, by omega⟩
  obtain ⟨h0, h1⟩ := splitPoint_pos h
  conv_lhs => rw [auditPath, hn, auditPathFuel, if_neg (by omega), if_pos hm]
  rw [T.auditPathFuel_eq _ n _ (by rw [List.length_take]; omega)]

theorem auditPath_right {l : List α} {m : Nat} (h : 2 ≤ l.length) (hm : splitPoint l.length ≤ m) :
    T.auditPath m l = T.auditPath (m - splitPoint l.length) (l.drop (splitPoint l.length)) ++
      [T.mth (l.take (splitPoint l.length))] := by
  obtain ⟨n, hn⟩ : ∃ n, l.length = n + 1 := ⟨l.length - 1, by omega⟩
  obtain ⟨h0, h1⟩ := splitPoint_pos h
  conv_lhs => rw [auditPath, hn, auditPathFuel, if_neg (by omega), if_neg (by omega)]
  rw [T.auditPathFuel_eq _ n _ (by rw [List.length_drop]; omega)]

/-! ## The verifier's walk -/

/-- Shifts both positions right while the first is even and not zero. -/
def stripZeros : Nat → Nat → Nat → Nat × Nat
  | 0, f, s => (f, s)
  | fuel + 1, f, s => if f % 2 = 0 ∧ f ≠ 0 then stripZeros fuel (f / 2) (s / 2) else (f, s)

/-- Folds siblings into the value at position `f` of a level whose last position
is `s`: `left` takes a sibling from the left, `right` one from the right.
`none` when siblings are left over. -/
def climb {β : Type} (left : H → β → β) (right : β → H → β) : List H → Nat → Nat → β →
    Option (Nat × Nat × β)
  | [], f, s, acc => some (f, s, acc)
  | p :: ps, f, s, acc =>
    if s = 0 then none
    else if f % 2 = 1 ∨ f = s then
      climb left right ps ((stripZeros f f s).1 / 2) ((stripZeros f f s).2 / 2) (left p acc)
    else climb left right ps (f / 2) (s / 2) (right acc p)

theorem climb_append {β : Type} {left : H → β → β} {right : β → H → β} {ps qs : List H} :
    ∀ {f s : Nat} {acc : β}, climb left right (ps ++ qs) f s acc =
      (climb left right ps f s acc).bind fun x => climb left right qs x.1 x.2.1 x.2.2 := by
  induction ps with
  | nil => intro f s acc; rfl
  | cons p ps ih =>
    intro f s acc
    simp only [List.cons_append, climb]
    split
    · rfl
    · split
      · exact ih
      · exact ih

theorem stripZeros_odd {fuel f s : Nat} (h : f % 2 = 1) : stripZeros fuel f s = (f, s) := by
  cases fuel with
  | zero => rfl
  | succ fuel => rw [stripZeros, if_neg (by omega)]

/-- Two equal positions `b * 2 ^ r` with `b` odd strip to `b`. -/
theorem stripZeros_mul {b : Nat} (hb : b % 2 = 1) : ∀ {r fuel : Nat}, r ≤ fuel →
    stripZeros fuel (b * 2 ^ r) (b * 2 ^ r) = (b, b)
  | 0, fuel, _ => by rw [pow_zero, mul_one, stripZeros_odd hb]
  | r + 1, 0, h => by omega
  | r + 1, fuel + 1, h => by
    have e : b * 2 ^ (r + 1) = b * 2 ^ r * 2 := by rw [pow_succ, mul_assoc]
    have hpos : 0 < b * 2 ^ r := Nat.mul_pos (by omega) (Nat.two_pow_pos r)
    rw [stripZeros, if_pos (by omega), e, Nat.mul_div_cancel _ (by omega : 0 < 2),
      stripZeros_mul hb (Nat.le_of_succ_le_succ h)]

/-- Combines with a left sibling, then a right one, by the node hash. -/
abbrev walk (ps : List H) (f s : Nat) (acc : H) : Option (Nat × Nat × H) := climb T.node T.node ps f s acc

theorem walk_right {f s : Nat} {acc p : H} (hf : f % 2 = 0) (hfs : f < s) :
    T.walk [p] f s acc = some (f / 2, s / 2, T.node acc p) := by
  simp only [walk, climb]
  rw [if_neg (by omega), if_neg (by omega)]

theorem walk_left_odd {f s : Nat} {acc p : H} (hf : f % 2 = 1) (hfs : f ≤ s) :
    T.walk [p] f s acc = some (f / 2, s / 2, T.node p acc) := by
  simp only [walk, climb]
  rw [if_neg (by omega), if_pos (.inl hf), stripZeros_odd hf]

theorem walk_left_edge {b r : Nat} {acc p : H} (hb : b % 2 = 1) :
    T.walk [p] (b * 2 ^ r) (b * 2 ^ r) acc = some (b / 2, b / 2, T.node p acc) := by
  have hr : r < 2 ^ r := Nat.lt_two_pow_self
  have hle : 1 * 2 ^ r ≤ b * 2 ^ r := Nat.mul_le_mul_right _ (by omega)
  have hor : b * 2 ^ r % 2 = 1 ∨ b * 2 ^ r = b * 2 ^ r := .inr rfl
  rw [walk, climb, if_neg (by omega), if_pos hor, stripZeros_mul hb (by omega), climb]

theorem div_two_pow_succ (n q : Nat) : n / 2 ^ (q + 1) = n / 2 ^ q / 2 := by rw [pow_succ, Nat.div_div_eq_div_mul]

theorem mod_two_pow_succ (n q : Nat) : n % 2 ^ (q + 1) = n % 2 ^ q + 2 ^ q * (n / 2 ^ q % 2) := by
  rw [pow_succ, Nat.mod_mul]

/-- A position in the left half of a subtree of `2 ^ (q + 1)` leaves. -/
theorem left_half {n q m : Nat} (h : n % 2 ^ (q + 1) = m) (hm : m < 2 ^ q) : n / 2 ^ q % 2 = 0 ∧ n % 2 ^ q = m := by
  have hmod := mod_two_pow_succ n q
  rcases Nat.mod_two_eq_zero_or_one (n / 2 ^ q) with hq | hq
  · rw [hq] at hmod
    omega
  · rw [hq] at hmod
    omega

theorem right_half {n q m : Nat} (h : n % 2 ^ (q + 1) = m) (hm : 2 ^ q ≤ m) : n / 2 ^ q % 2 = 1 ∧ n % 2 ^ q = m - 2 ^ q := by
  have hmod := mod_two_pow_succ n q
  have hlt := Nat.mod_lt n (Nat.two_pow_pos q)
  rcases Nat.mod_two_eq_zero_or_one (n / 2 ^ q) with hq | hq
  · rw [hq] at hmod
    omega
  · rw [hq] at hmod
    omega

/-! ### Behind `a` subtrees of `2 ^ (q + 1 + d)` leaves -/

theorem behind_eq (a q d : Nat) : a * 2 ^ (q + 1 + d) = 2 ^ q * (a * 2 ^ d * 2) := by
  rw [pow_add, pow_succ]
  ring

theorem behind_div (a q d n : Nat) : (a * 2 ^ (q + 1 + d) + n) / 2 ^ q = a * 2 ^ d * 2 + n / 2 ^ q := by
  rw [behind_eq, Nat.mul_add_div (Nat.two_pow_pos q)]

theorem behind_mod (a q d n : Nat) : (a * 2 ^ (q + 1 + d) + n) % 2 ^ q = n % 2 ^ q := by
  rw [behind_eq, Nat.mul_add_mod]

/-- In the right half there is an odd number of subtrees of `2 ^ q` leaves before. -/
theorem behind_right (a d : Nat) {q n : Nat} (h : 2 ^ q ≤ n) :
    a * 2 ^ (q + 1 + d) + n = (a * 2 ^ d * 2 + 1) * 2 ^ q + (n - 2 ^ q) := by
  rw [behind_eq, Nat.add_mul, one_mul, Nat.mul_comm (2 ^ q)]
  omega

theorem exists_level {n q j : Nat} (hq : 2 ^ q < n) (hj : n ≤ 2 ^ j) : ∃ d, j = q + 1 + d := by
  refine ⟨j - (q + 1), ?_⟩
  have hlt : q < j := (Nat.pow_lt_pow_iff_right (by decide)).1 (hq.trans_le hj)
  omega

/-- A perfect subtree that does not reach the right edge: the walk ends at its
root, `q` levels up. -/
theorem walk_perfect : ∀ {q : Nat} {l : List α} {m f s : Nat} {a : α}, l.length = 2 ^ q →
    l[m]? = some a → f % 2 ^ q = m → f / 2 ^ q < s / 2 ^ q →
    T.walk (T.auditPath m l) f s (T.leaf a) = some (f / 2 ^ q, s / 2 ^ q, T.mth l)
  | 0, l, m, f, s, a, hl, hm, hf, hfs => by
    obtain ⟨b, rfl⟩ := List.length_eq_one_iff.1 hl
    rw [pow_zero, Nat.mod_one] at hf
    subst hf
    obtain rfl : b = a := by simpa using hm
    simp [walk, climb]
  | q + 1, l, m, f, s, a, hl, hm, hf, hfs => by
    have hsplit : splitPoint l.length = 2 ^ q := by rw [hl, splitPoint_two_pow]
    have h2 : 2 ≤ l.length := by rw [hl, pow_succ]; omega
    have hmlt : m < l.length := (List.getElem?_eq_some_iff.1 hm).1
    have hlt : f / 2 ^ q < s / 2 ^ q := by
      rw [div_two_pow_succ, div_two_pow_succ] at hfs
      omega
    by_cases hmk : m < 2 ^ q
    · obtain ⟨heven, hfm'⟩ := left_half hf hmk
      have ih := walk_perfect (l := l.take (2 ^ q)) (m := m) (f := f) (s := s) (a := a)
        (by rw [List.length_take]; omega) (by rw [List.getElem?_take, if_pos hmk, hm]) hfm' hlt
      rw [T.auditPath_left h2 (by omega), hsplit, walk, climb_append]
      simp only [walk] at ih
      rw [ih, Option.bind_some, ← walk, T.walk_right heven hlt, div_two_pow_succ, div_two_pow_succ, T.mth_split h2, hsplit]
    · obtain ⟨hodd, hfm'⟩ := right_half hf (Nat.le_of_not_lt hmk)
      have ih := walk_perfect (l := l.drop (2 ^ q)) (m := m - 2 ^ q) (f := f) (s := s) (a := a)
        (by rw [List.length_drop]; omega)
        (by rw [List.getElem?_drop, show 2 ^ q + (m - 2 ^ q) = m by omega, hm]) hfm' hlt
      rw [T.auditPath_right h2 (by omega), hsplit, walk, climb_append]
      simp only [walk] at ih
      rw [ih, Option.bind_some, ← walk, T.walk_left_odd hodd hlt.le, div_two_pow_succ, div_two_pow_succ,
        T.mth_split h2, hsplit]

/-- A subtree on the right edge, `a` subtrees of `2 ^ j` leaves before it: the
walk ends on the edge, at its root. -/
theorem walk_edge (l : List α) : ∀ {a j m : Nat} {x : α}, l[m]? = some x → l.length ≤ 2 ^ j →
    ∃ r ≤ j, T.walk (T.auditPath m l) (a * 2 ^ j + m) (a * 2 ^ j + (l.length - 1)) (T.leaf x) =
      some (a * 2 ^ (j - r), a * 2 ^ (j - r), T.mth l) := by
  induction l using split_induction with
  | nil => intro a j m x hm; simp at hm
  | single y =>
    intro a j m x hm _
    obtain ⟨rfl, rfl⟩ : m = 0 ∧ y = x := by
      rw [List.getElem?_singleton] at hm
      split at hm
      · exact ⟨‹_›, by simpa using hm⟩
      · cases hm
    exact ⟨0, Nat.zero_le _, by simp [walk, climb]⟩
  | split l h2 iht ihd =>
    intro a j m x hm hj
    obtain ⟨q, hsplit, hq1, hq2⟩ := exists_splitPoint h2
    have hmlt : m < l.length := (List.getElem?_eq_some_iff.1 hm).1
    obtain ⟨d, rfl⟩ := exists_level hq1 hj
    refine ⟨q + 1, by omega, ?_⟩
    rw [show q + 1 + d - (q + 1) = d by omega]
    by_cases hmk : m < 2 ^ q
    · have hf : (a * 2 ^ (q + 1 + d) + m) / 2 ^ q = a * 2 ^ d * 2 := by
        rw [behind_div, Nat.div_eq_of_lt hmk, Nat.add_zero]
      have hs : (a * 2 ^ (q + 1 + d) + (l.length - 1)) / 2 ^ q = a * 2 ^ d * 2 + 1 := by
        rw [behind_div, show (l.length - 1) / 2 ^ q = 1 from Nat.div_eq_of_lt_le (by omega) (by omega)]
      have hpath := T.walk_perfect (q := q) (l := l.take (2 ^ q)) (m := m) (a := x)
        (f := a * 2 ^ (q + 1 + d) + m) (s := a * 2 ^ (q + 1 + d) + (l.length - 1))
        (by rw [List.length_take]; omega) (by rw [List.getElem?_take, if_pos hmk, hm])
        (by rw [behind_mod, Nat.mod_eq_of_lt hmk]) (by rw [hf, hs]; omega)
      rw [T.auditPath_left h2 (by omega), hsplit, walk, climb_append]
      simp only [walk] at hpath
      have hup : T.walk [T.mth (l.drop (2 ^ q))] (a * 2 ^ d * 2) (a * 2 ^ d * 2 + 1) (T.mth (l.take (2 ^ q))) =
          some (a * 2 ^ d * 2 / 2, (a * 2 ^ d * 2 + 1) / 2, T.node (T.mth (l.take (2 ^ q))) (T.mth (l.drop (2 ^ q)))) :=
        T.walk_right (by omega) (by omega)
      rw [hpath, Option.bind_some, hf, hs]
      simp only [walk] at hup
      rw [hup, T.mth_split h2, hsplit]
      simp only [Option.some.injEq, Prod.mk.injEq, and_true]
      omega
    · -- the right part lies behind an odd number of subtrees of `2 ^ q` leaves
      have ef := behind_right a d (show 2 ^ q ≤ m by omega)
      have es := behind_right a d (show 2 ^ q ≤ l.length - 1 by omega)
      have elen : l.length - 1 - 2 ^ q = (l.drop (2 ^ q)).length - 1 := by
        rw [List.length_drop]
        omega
      rw [hsplit] at ihd
      obtain ⟨r, hr, ih⟩ := ihd (a := a * 2 ^ d * 2 + 1) (j := q) (m := m - 2 ^ q) (x := x)
        (by rw [List.getElem?_drop, show 2 ^ q + (m - 2 ^ q) = m by omega, hm])
        (by rw [List.length_drop]; omega)
      rw [T.auditPath_right h2 (by omega), hsplit, walk, climb_append, ef, es, elen]
      simp only [walk] at ih
      rw [ih, Option.bind_some, ← walk, T.walk_left_edge (by omega), T.mth_split h2, hsplit]
      simp only [Option.some.injEq, Prod.mk.injEq, and_true]
      omega

/-- **Completeness.** From a leaf, its audit path leads to the root. -/
theorem climb_auditPath {l : List α} {m : Nat} {x : α} (h : l[m]? = some x) :
    T.walk (T.auditPath m l) m (l.length - 1) (T.leaf x) = some (0, 0, T.mth l) := by
  have hlt : l.length < 2 ^ l.length := Nat.lt_two_pow_self
  obtain ⟨r, -, hw⟩ := T.walk_edge l (a := 0) (j := l.length) h hlt.le
  simpa using hw

/-! ## The incremental form -/

/-- Puts a subtree on the stack (top first), merging with equal heights. -/
def carry : Nat → H → List (Nat × H) → List (Nat × H)
  | level, x, [] => [(level, x)]
  | level, x, (h, y) :: st =>
    if h = level then carry (level + 1) (T.node y x) st else (level, x) :: (h, y) :: st

/-- Folds the stack from the top down. -/
def peaksRoot : List (Nat × H) → H
  | [] => T.empty
  | (_, x) :: st => st.foldl (fun acc p => T.node p.2 acc) x

/-- The stack covers the list with perfect subtrees, the last one on top, each
lower than the next. -/
inductive Peaks : List (Nat × H) → List α → Prop
  | nil : Peaks [] []
  | cons {h : Nat} {seg pre : List α} {st : List (Nat × H)} (len : seg.length = 2 ^ h)
      (below : Peaks st pre) (inc : ∀ p ∈ st.head?, h < p.1) :
      Peaks ((h, T.mth seg) :: st) (pre ++ seg)

variable {T}

theorem Peaks.carry {st : List (Nat × H)} {pre : List α} (hp : T.Peaks st pre) :
    ∀ {level : Nat} {seg : List α}, seg.length = 2 ^ level → (∀ p ∈ st.head?, level ≤ p.1) →
      T.Peaks (T.carry level (T.mth seg) st) (pre ++ seg) := by
  induction hp with
  | nil =>
    intro level seg hl _
    exact .cons hl .nil (by simp)
  | @cons h seg' pre st len below inc ih =>
    intro level seg hl hle
    have hlh : level ≤ h := by simpa using hle
    unfold TreeHash.carry
    split
    · rename_i heq
      subst heq
      have hm : T.mth (seg' ++ seg) = T.node (T.mth seg') (T.mth seg) :=
        T.mth_append len (by rw [hl]; exact Nat.two_pow_pos _) (by omega)
      rw [← hm, List.append_assoc]
      refine ih ?_ fun p hp => inc p hp
      rw [List.length_append, pow_succ]
      omega
    · rename_i hne
      refine .cons hl (.cons len below inc) ?_
      intro p hp
      obtain rfl : (h, T.mth seg') = p := by simpa using hp
      exact Nat.lt_of_le_of_ne hlh fun h => hne h.symm

theorem Peaks.push {st : List (Nat × H)} {l : List α} (hp : T.Peaks st l) (a : α) :
    T.Peaks (T.carry 0 (T.leaf a) st) (l ++ [a]) := by
  have len : [a].length = 2 ^ 0 := rfl
  exact hp.carry len fun _ _ => Nat.zero_le _

theorem Peaks.foldl_eq {st : List (Nat × H)} {pre : List α} (hp : T.Peaks st pre) :
    ∀ {suf : List α}, 0 < suf.length → (∀ p ∈ st.head?, suf.length ≤ 2 ^ p.1) →
      st.foldl (fun acc p => T.node p.2 acc) (T.mth suf) = T.mth (pre ++ suf) := by
  induction hp with
  | nil => intro suf _ _; rfl
  | @cons h seg pre st len below inc ih =>
    intro suf h0 hle
    have hsuf : suf.length ≤ 2 ^ h := by simpa using hle
    rw [List.foldl_cons, ← T.mth_append len h0 hsuf, List.append_assoc]
    refine ih (by rw [List.length_append]; omega) fun p hp => ?_
    have : 2 ^ (h + 1) ≤ 2 ^ p.1 := Nat.pow_le_pow_right (by omega) (inc p hp)
    rw [List.length_append]
    rw [pow_succ] at this
    omega

/-- **The stack's root is the tree hash** of the list it covers. -/
theorem Peaks.root_eq {st : List (Nat × H)} {l : List α} (hp : T.Peaks st l) :
    T.peaksRoot st = T.mth l := by
  cases hp with
  | nil => rfl
  | @cons h seg pre st len below inc =>
    refine below.foldl_eq (by rw [len]; exact Nat.two_pow_pos h) fun p hp => ?_
    rw [len]
    exact Nat.pow_le_pow_right (by omega) (inc p hp).le

theorem Peaks.increasing {st : List (Nat × H)} {l : List α} (hp : T.Peaks st l) :
    (st.map Prod.fst).Pairwise (· < ·) := by
  induction hp with
  | nil => exact .nil
  | @cons h seg pre st len below inc ih =>
    rw [List.map_cons, List.pairwise_cons]
    refine ⟨fun k hk => ?_, ih⟩
    cases st with
    | nil => cases hk
    | cons p st =>
      have hp := inc p rfl
      rw [List.map_cons] at hk ih
      rcases List.mem_cons.1 hk with rfl | hk
      · exact hp
      · exact hp.trans (List.rel_of_pairwise_cons ih hk)

theorem Peaks.length_eq {st : List (Nat × H)} {l : List α} (hp : T.Peaks st l) :
    ((st.map Prod.fst).map (2 ^ ·)).sum = l.length := by
  induction hp with
  | nil => rfl
  | @cons h seg pre st len below inc ih =>
    rw [List.map_cons, List.map_cons, List.sum_cons, ih, List.length_append, len]
    exact Nat.add_comm _ _

/-- The heights are the binary digits of the length. -/
theorem Peaks.heights_eq {st : List (Nat × H)} {l : List α} (hp : T.Peaks st l) :
    st.map Prod.fst = l.length.bitIndices := by
  rw [← hp.length_eq]
  exact (Nat.bitIndices_sum_map_two_pow (List.sortedLT_iff_pairwise.2 hp.increasing)).symm

/-- Every node is the tree hash of its own segment, the segments in order from
the bottom up. -/
theorem Peaks.segments {st : List (Nat × H)} {l : List α} (hp : T.Peaks st l) :
    ∃ segs : List (List α), segs.flatten = l ∧
      List.Forall₂ (fun p seg => seg.length = 2 ^ p.1 ∧ p.2 = T.mth seg) st.reverse segs := by
  induction hp with
  | nil => exact ⟨[], rfl, .nil⟩
  | @cons h seg pre st len below inc ih =>
    obtain ⟨segs, rfl, hf⟩ := ih
    refine ⟨segs ++ [seg], by simp, ?_⟩
    rw [List.reverse_cons]
    exact List.rel_append hf (.cons ⟨len, rfl⟩ .nil)

theorem Peaks.unique {st : List (Nat × H)} {l : List α} (hp : T.Peaks st l) :
    ∀ {st' : List (Nat × H)}, T.Peaks st' l → st = st' := by
  induction hp with
  | nil =>
    intro st' hp'
    have hh := hp'.heights_eq
    simpa using hh.symm
  | @cons h seg pre st len below inc ih =>
    intro st' hp'
    have hh := (Peaks.cons len below inc).heights_eq
    rw [← hp'.heights_eq] at hh
    generalize hl : pre ++ seg = l at hp'
    cases hp' with
    | nil => simp at hh
    | @cons h' seg' pre' st' len' below' inc' =>
      obtain ⟨rfl, -⟩ := List.cons.inj hh
      obtain ⟨rfl, rfl⟩ := List.append_inj' hl (len.trans len'.symm)
      rw [ih below']

end TreeHash

end DoubleEntry.Core
