import Mathlib

/-!
# Rows in the order of a key

`orderBy key` sorts rows by a key. Rows with distinct keys have one order
(`eq_of_perm_of_keys`), so a part of what is sorted is known once it is known up to
order (`filter_orderBy`).

**Results.**
* `orderBy_perm`, `orderBy_sorted`: the same rows, in order.
* `eq_of_perm_of_keys`: two sorted lists of the same rows with distinct keys are one.
* `filter_orderBy`, `map_orderBy`: what is sorted can be selected, or mapped, before.
-/
namespace DoubleEntry.Core

variable {α β κ : Type} [LinearOrder κ] {key : α → κ} {l l' : List α}

/-- `ORDER BY key` -/
def orderBy (key : α → κ) (l : List α) : List α := l.insertionSort fun a b => key a ≤ key b

theorem orderBy_perm (key : α → κ) (l : List α) : (orderBy key l).Perm l := List.perm_insertionSort _ l

@[simp] theorem mem_orderBy {a : α} : a ∈ orderBy key l ↔ a ∈ l := (orderBy_perm key l).mem_iff

@[simp] theorem length_orderBy (key : α → κ) (l : List α) : (orderBy key l).length = l.length :=
  (orderBy_perm key l).length_eq

theorem orderBy_sorted (key : α → κ) (l : List α) : (orderBy key l).Pairwise fun a b => key a ≤ key b := by
  have htotal : Std.Total fun a b : α => key a ≤ key b := ⟨fun a b => le_total (key a) (key b)⟩
  have htrans : IsTrans α fun a b => key a ≤ key b := ⟨fun _ _ _ h h' => h.trans h'⟩
  exact List.pairwise_insertionSort _ l

theorem eq_of_key_eq (h : l.Pairwise fun a b => key a < key b) {a b : α} (ha : a ∈ l) (hb : b ∈ l) (hkey : key a = key b) :
    a = b := by
  have hne : l.Pairwise fun a b => key a ≠ key b := h.imp fun hlt => ne_of_lt hlt
  have hsymm : Std.Symm fun a b : α => key a ≠ key b := ⟨fun _ _ => Ne.symm⟩
  by_contra hab
  exact hne.forall ha hb hab hkey

theorem eq_of_perm_of_keys (hp : l.Perm l') (hl : l.Pairwise fun a b => key a ≤ key b)
    (hl' : l'.Pairwise fun a b => key a < key b) : l = l' :=
  hp.eq_of_pairwise (fun _ _ ha hb hab hba => eq_of_key_eq hl' (hp.mem_iff.1 ha) hb (le_antisymm hab hba)) hl
    (hl'.imp le_of_lt)

theorem filter_orderBy {p : α → Bool} (hp : (l.filter p).Perm l') (hl' : l'.Pairwise fun a b => key a < key b) :
    (orderBy key l).filter p = l' :=
  eq_of_perm_of_keys (((orderBy_perm key l).filter p).trans hp) ((orderBy_sorted key l).filter p) hl'

theorem map_orderBy (key : α → κ) (f : β → α) (l : List β) : (orderBy (fun b => key (f b)) l).map f = orderBy key (l.map f) :=
  List.map_insertionSort _ _ f l fun _ _ _ _ => Iff.rfl

/-- The rows of one parent among those of all of them. -/
theorem filter_flatMap_unique {γ : Type} [DecidableEq γ] {k : β → γ} {f : β → List α} {p : α → Bool} {rows : List β} {b : β}
    (hu : (rows.map k).Nodup) (hb : b ∈ rows) (hp : ∀ c ∈ rows, ∀ a ∈ f c, p a = true ↔ k c = k b) :
    (rows.flatMap f).filter p = f b := by
  have hall : ∀ c ∈ rows, (f c).filter p = if k c = k b then f c else [] := fun c hc => by
    split
    · rename_i h
      exact List.filter_eq_self.2 fun a ha => (hp c hc a ha).2 h
    · rename_i h
      exact List.filter_eq_nil_iff.2 fun a ha hpa => h ((hp c hc a ha).1 hpa)
  clear hp
  induction rows with
  | nil => cases hb
  | cons c rows ih =>
    rw [List.map_cons, List.nodup_cons] at hu
    rw [List.flatMap_cons, List.filter_append, hall c List.mem_cons_self]
    rcases List.mem_cons.1 hb with rfl | hb
    · have hrest : (rows.flatMap f).filter p = [] := by
        refine List.filter_eq_nil_iff.2 fun a ha hpa => ?_
        obtain ⟨c, hc, hac⟩ := List.mem_flatMap.1 ha
        have hsame := hall c (List.mem_cons_of_mem _ hc)
        rw [if_neg fun e => hu.1 (List.mem_map.2 ⟨c, hc, e⟩)] at hsame
        exact absurd hpa (List.filter_eq_nil_iff.1 hsame a hac)
      rw [if_pos rfl, hrest, List.append_nil]
    · rw [if_neg fun e => hu.1 (List.mem_map.2 ⟨b, hb, e.symm⟩), List.nil_append]
      exact ih hu.2 hb fun c hc => hall c (List.mem_cons_of_mem _ hc)

end DoubleEntry.Core
