import DoubleEntry.Core.Except
import DoubleEntry.Core.Scan

/-!
# Reading a list page by page

A read answers a cursor with some items and, while there are more, the cursor to go on
with. It pages through a list when the items of a page, and what is left for the next
cursor, are what was left before (`Pages`). Then following the cursors gives the whole
list, whatever limits they get on the way, in at most a read for each item and one more
(`follow_eq`, `drain_eq`).

Where positions increase along a list, it is enough that a page goes up to a position and
the next one starts after it (`pages_pageOf`).

**Assumptions.** Positions increase strictly, a page has room for an item, and its cursor
goes on after the last item it returned.

**Results.**
* `follow_eq`: with any limits on the way, the pages add up to the list.
* `drain_eq`: one read more than there are items is enough.
* `pages_pageOf`: a page that is cut after a position meets the assumptions.
-/
namespace DoubleEntry.Core

variable {α κ C ε : Type}

/-! ## Following cursors -/

/-- Reads page after page, at most `fuel` of them, each cursor with the next of `limits`. -/
def follow (read : C → Except ε (List α × Option C)) (withLimit : C → ℕ → C) :
    ℕ → (ℕ → ℕ) → Option C → Except ε (Option (List α))
  | _, _, none => .ok (some [])
  | 0, _, some _ => .ok none
  | fuel + 1, limits, some c => do
    let page ← read (withLimit c (limits 0))
    let rest ← follow read withLimit fuel (fun n => limits (n + 1)) page.2
    .ok (rest.map (page.1 ++ ·))

/-- Reads page after page until a cursor is missing or a page is empty. -/
def drain (read : C → Except ε (List α × Option C)) : ℕ → List α → Option C → Except ε (Option (List α))
  | _, out, none => .ok (some out)
  | 0, _, some _ => .ok none
  | fuel + 1, out, some c => do
    let page ← read c
    if page.1.isEmpty then .ok (some out) else drain read fuel (out ++ page.1) page.2

/-- What a cursor leaves is on its page and left by the next one. A page with a next
cursor is not empty. -/
def Pages (read : C → Except ε (List α × Option C)) (left : C → List α) : Prop :=
  ∀ c, ∃ items next, read c = .ok (items, next) ∧ left c = items ++ next.elim [] left ∧ (next.isSome → items ≠ [])

variable {read : C → Except ε (List α × Option C)} {left : C → List α}

/-- **Following the cursors gives what was left**, with any limits. -/
theorem follow_eq {withLimit : C → ℕ → C} (h : Pages read left) (hlimit : ∀ c n, left (withLimit c n) = left c) :
    ∀ {fuel : ℕ} {limits : ℕ → ℕ} {c : C}, (left c).length < fuel →
      follow read withLimit fuel limits (some c) = .ok (some (left c)) := by
  intro fuel
  induction fuel with
  | zero => exact fun hfuel => absurd hfuel (Nat.not_lt_zero _)
  | succ fuel ih =>
    intro limits c hfuel
    obtain ⟨items, next, hread, hleft, hitems⟩ := h (withLimit c (limits 0))
    rw [hlimit] at hleft
    simp only [follow, hread, bind, Except.bind]
    cases next with
    | none => simp [follow, hleft]
    | some c' =>
      rw [Option.elim_some] at hleft
      have hpos : 0 < items.length := List.length_pos_iff.2 (hitems rfl)
      have hshort : (left c').length < fuel := by
        rw [hleft, List.length_append] at hfuel
        omega
      simp [ih hshort, hleft]

/-- Following the cursors from `start` gives the whole list, whatever the limits. -/
def Complete (read : C → Except ε (List α × Option C)) (withLimit : C → ℕ → C) (start : C) (all : List α) : Prop :=
  ∀ limits fuel, all.length < fuel → follow read withLimit fuel limits (some start) = .ok (some all)

theorem Pages.complete (h : Pages read left) (withLimit : C → ℕ → C) (hlimit : ∀ c n, left (withLimit c n) = left c)
    {start : C} {all : List α} (hstart : left start = all) : Complete read withLimit start all := by
  intro limits fuel hfuel
  rw [← hstart] at hfuel ⊢
  exact follow_eq h hlimit hfuel

theorem drain_eq (h : Pages read left) : ∀ {fuel : ℕ} {out : List α} {c : C}, (left c).length < fuel →
    drain read fuel out (some c) = .ok (some (out ++ left c)) := by
  intro fuel
  induction fuel with
  | zero => exact fun hfuel => absurd hfuel (Nat.not_lt_zero _)
  | succ fuel ih =>
    intro out c hfuel
    obtain ⟨items, next, hread, hleft, hitems⟩ := h c
    simp only [drain, hread, bind, Except.bind]
    cases next with
    | none =>
      rw [Option.elim_none, List.append_nil] at hleft
      by_cases hnil : items = [] <;> simp [drain, hleft, hnil]
    | some c' =>
      rw [Option.elim_some] at hleft
      have hne : items ≠ [] := hitems rfl
      have hpos : 0 < items.length := List.length_pos_iff.2 hne
      have hshort : (left c').length < fuel := by
        rw [hleft, List.length_append] at hfuel
        omega
      simp [ih hshort, hleft, hne]

/-! ## Pages by position -/

section
variable [LinearOrder κ] {pos : α → κ} {all : List α}

/-- The items after a position. -/
def leftAfter (pos : α → κ) (all : List α) : Option κ → List α
  | none => all
  | some p => all.filter fun x => p < pos x

/-- Where positions increase, they are what is behind the others. -/
theorem leftAfter_eq_dropWhile (h : all.Pairwise fun x y => pos x < pos y) (p : κ) :
    leftAfter pos all (some p) = all.dropWhile fun x => !decide (p < pos x) := by
  have hstays : all.Pairwise fun x y => (!decide (p < pos y)) = true → (!decide (p < pos x)) = true :=
    h.imp fun hlt hle => by
      simp only [Bool.not_eq_true', decide_eq_false_iff_not, not_lt] at hle ⊢
      exact hlt.le.trans hle
  rw [dropWhile_eq_filter hstays]
  simp [leftAfter]

theorem leftAfter_suffix (h : all.Pairwise fun x y => pos x < pos y) (p : Option κ) : leftAfter pos all p <:+ all := by
  cases p with
  | none => exact List.suffix_rfl
  | some p =>
    rw [leftAfter_eq_dropWhile h]
    exact List.dropWhile_suffix _

/-- The index of the first of them, or past the end if there is none. -/
def startAfter (pos : α → κ) (all : List α) (p : Option κ) : ℕ := p.elim 0 fun p => all.findIdx fun x => p < pos x

theorem startAfter_le (p : Option κ) : startAfter pos all p ≤ all.length := by
  cases p with
  | none => exact Nat.zero_le _
  | some p => exact List.findIdx_le_length

theorem drop_startAfter (h : all.Pairwise fun x y => pos x < pos y) (p : Option κ) :
    all.drop (startAfter pos all p) = leftAfter pos all p := by
  cases p with
  | none => rfl
  | some p =>
    rw [leftAfter_eq_dropWhile h, List.dropWhile_eq_drop_findIdx_not]
    simp [startAfter]

theorem startAfter_congr {β : Type} {pos' : β → κ} {all' : List β} (h : all.map pos = all'.map pos') (p : Option κ) :
    startAfter pos all p = startAfter pos' all' p := by
  cases p with
  | none => rfl
  | some p =>
    have hmap := congrArg (List.findIdx fun k => p < k) h
    rw [List.findIdx_map, List.findIdx_map] at hmap
    exact hmap

/-- After the last item of a part are those behind the part. -/
theorem leftAfter_last {front rest : List α} (h : (front ++ rest).Pairwise fun x y => pos x < pos y) {x : α}
    (hx : front.getLast? = some x) : leftAfter pos (front ++ rest) (some (pos x)) = rest := by
  obtain ⟨l, rfl⟩ := List.getLast?_eq_some_iff.1 hx
  obtain ⟨hfront, -, hcross⟩ := List.pairwise_append.1 h
  have hdrop : (l ++ [x]).filter (fun y => pos x < pos y) = [] := by
    refine List.filter_eq_nil_iff.2 fun y hy => ?_
    rcases List.mem_append.1 hy with hy | hy
    · simpa using ((List.pairwise_append.1 hfront).2.2 y hy x List.mem_cons_self).le
    · simp [List.mem_singleton.1 hy]
  have hkeep : rest.filter (fun y => pos x < pos y) = rest :=
    List.filter_eq_self.2 fun y hy => decide_eq_true (hcross x (by simp) y hy)
  rw [leftAfter, List.filter_append, hdrop, hkeep, List.nil_append]

variable (pos all) (after : C → Option κ) (limit : C → ℕ) (resume : C → α → C)

/-- So many items after the position of a cursor, with a cursor at the last one if it is
not the last of all. -/
def pageOf (c : C) : List α × Option C :=
  let rest := leftAfter pos all (after c)
  let items := rest.take (limit c)
  (items, if limit c < rest.length then items.getLast?.map (resume c) else none)

variable {pos all after limit resume}

/-- **Pages by position page through the list.** -/
theorem pages_pageOf (h : all.Pairwise fun x y => pos x < pos y) (hlimit : ∀ c, 0 < limit c)
    (hresume : ∀ c x, after (resume c x) = some (pos x)) :
    Pages (fun c => (.ok (pageOf pos all after limit resume c) : Except ε (List α × Option C)))
      (fun c => leftAfter pos all (after c)) := by
  intro c
  refine ⟨_, _, rfl, ?_, ?_⟩
  · beta_reduce
    by_cases hmore : limit c < (leftAfter pos all (after c)).length
    · obtain ⟨front, hfront⟩ := leftAfter_suffix h (after c)
      generalize leftAfter pos all (after c) = rest at hfront hmore ⊢
      have hne : rest.take (limit c) ≠ [] := by
        have := hlimit c
        rw [Ne, List.take_eq_nil_iff]
        rintro (h0 | h0)
        · omega
        · rw [h0] at hmore
          exact absurd hmore (Nat.not_lt_zero _)
      obtain ⟨x, hx⟩ : ∃ x, (rest.take (limit c)).getLast? = some x := ⟨_, List.getLast?_eq_some_getLast hne⟩
      have hall : all = (front ++ rest.take (limit c)) ++ rest.drop (limit c) := by
        rw [List.append_assoc, List.take_append_drop, hfront]
      have hlast : (front ++ rest.take (limit c)).getLast? = some x := by
        rw [List.getLast?_append, hx, Option.some_or]
      have hleft : leftAfter pos all (some (pos x)) = rest.drop (limit c) := by
        rw [hall] at h ⊢
        exact leftAfter_last h hlast
      rw [if_pos hmore, hx, Option.map_some, Option.elim_some, hresume, hleft, List.take_append_drop]
    · rw [if_neg hmore, Option.elim_none, List.append_nil, List.take_of_length_le (not_lt.1 hmore)]
  · intro hsome hnil
    rw [hnil] at hsome
    simp at hsome

end

end DoubleEntry.Core
