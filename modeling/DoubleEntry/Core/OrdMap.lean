import Mathlib

/-!
# Ordered maps

`OrdMap κ α` is a map with linearly ordered keys, kept as the list of its
entries in strictly increasing key order: the iteration order of a B-tree map.
The order is a field, so every map is a well-formed one, and two maps with the
same lookups are equal (`OrdMap.ext_get?`).

Besides lookup, insertion and removal there are the range reads
`lastLE` (`range(..=k).next_back()`), `firstGE` (`range(k..).next()`) and
`below` (`range(..k)`).

**Results.**
* `get?_insert`, `get?_erase`, `mem_entries`: lookups after an operation, and the entries.
* `firstGE_some`, `lastLE_some` and their `none` cases: what a range read returns is the nearest.
* `foldl_insert_entries`, `get?_foldl_insert`: maps that a loop builds.
* `keys_complete`: as many keys as the map has are all of them.
* `find?_unique`: a list in which every key stands once is searched as a map is.
-/
namespace DoubleEntry.Core

def KeysIncreasing {κ α : Type} [LinearOrder κ] (l : List (κ × α)) : Prop :=
  l.Pairwise fun a b => a.1 < b.1

structure OrdMap (κ α : Type) [LinearOrder κ] where
  entries : List (κ × α)
  increasing : KeysIncreasing entries

namespace OrdMap

variable {κ α β : Type} [LinearOrder κ]

/-! ## Lists of entries -/

def lookupList (k : κ) : List (κ × α) → Option α
  | [] => none
  | (k', a) :: l => if k' = k then some a else lookupList k l

def insertList (k : κ) (a : α) : List (κ × α) → List (κ × α)
  | [] => [(k, a)]
  | (k', a') :: l =>
    if k < k' then (k, a) :: (k', a') :: l
    else if k = k' then (k, a) :: l
    else (k', a') :: insertList k a l

theorem mem_insertList {k : κ} {a : α} {l : List (κ × α)} {e : κ × α}
    (h : e ∈ insertList k a l) : e = (k, a) ∨ e ∈ l := by
  induction l with
  | nil => simpa [insertList] using h
  | cons hd tl ih =>
    simp only [insertList] at h
    split at h
    · simpa using h
    · split at h
      · rcases List.mem_cons.1 h with h | h
        · exact .inl h
        · exact .inr (List.mem_cons_of_mem _ h)
      · rcases List.mem_cons.1 h with h | h
        · exact .inr (h ▸ List.mem_cons_self)
        · exact (ih h).imp id (List.mem_cons_of_mem _)

theorem increasing_insertList {k : κ} {a : α} {l : List (κ × α)} (h : KeysIncreasing l) :
    KeysIncreasing (insertList k a l) := by
  induction l with
  | nil => exact List.pairwise_singleton _ _
  | cons hd tl ih =>
    obtain ⟨h1, h2⟩ := List.pairwise_cons.1 h
    simp only [insertList]
    split
    · rename_i hlt
      refine List.pairwise_cons.2 ⟨fun e he => ?_, h⟩
      rcases List.mem_cons.1 he with rfl | he
      · exact hlt
      · exact lt_trans hlt (h1 e he)
    · rename_i hnlt
      split
      · rename_i heq
        exact List.pairwise_cons.2 ⟨fun e he => heq ▸ h1 e he, h2⟩
      · rename_i hne
        refine List.pairwise_cons.2 ⟨fun e he => ?_, ih h2⟩
        rcases mem_insertList he with rfl | he
        · exact lt_of_le_of_ne (not_lt.1 hnlt) (Ne.symm hne)
        · exact h1 e he

theorem lookupList_none_of_lt {k : κ} {l : List (κ × α)} (h : ∀ e ∈ l, k < e.1) :
    lookupList k l = none := by
  induction l with
  | nil => rfl
  | cons hd tl ih =>
    have hk := h hd List.mem_cons_self
    simp only [lookupList, if_neg hk.ne']
    exact ih fun e he => h e (List.mem_cons_of_mem _ he)

theorem lookupList_insertList {k : κ} {a : α} {l : List (κ × α)} (k' : κ) (h : KeysIncreasing l) :
    lookupList k' (insertList k a l) = if k = k' then some a else lookupList k' l := by
  induction l with
  | nil => rfl
  | cons hd tl ih =>
    obtain ⟨h1, h2⟩ := List.pairwise_cons.1 h
    simp only [insertList]
    split
    · rfl
    · split
      · rename_i heq
        simp only [lookupList, ← heq]
        by_cases hk : k = k' <;> simp [hk]
      · rename_i hne
        simp only [lookupList, ih h2]
        by_cases hk : hd.1 = k'
        · simp [hk, show k ≠ k' from hk ▸ hne]
        · simp [hk]

theorem insertList_last {k : κ} {a : α} {l : List (κ × α)} (h : ∀ e ∈ l, e.1 < k) :
    insertList k a l = l ++ [(k, a)] := by
  induction l with
  | nil => rfl
  | cons e l ih =>
    have he := h e List.mem_cons_self
    rw [insertList, if_neg (not_lt.2 he.le), if_neg (ne_of_gt he), ih fun x hx => h x (List.mem_cons_of_mem _ hx)]
    rfl

theorem mem_iff_lookupList {k : κ} {a : α} {l : List (κ × α)} (h : KeysIncreasing l) :
    (k, a) ∈ l ↔ lookupList k l = some a := by
  induction l with
  | nil => simp [lookupList]
  | cons hd tl ih =>
    obtain ⟨h1, h2⟩ := List.pairwise_cons.1 h
    by_cases hk : hd.1 = k
    · have hn : (k, a) ∉ tl := fun hm => absurd (h1 _ hm) (by simp [hk])
      simp only [lookupList, if_pos hk, List.mem_cons, hn, or_false, Option.some.injEq]
      exact ⟨fun he => by rw [← he], fun he => by rw [← he, ← hk]⟩
    · simp only [lookupList, if_neg hk, List.mem_cons, ← ih h2]
      exact ⟨fun he => he.resolve_left fun e => hk (e ▸ rfl), .inr⟩

/-! ## Maps -/

/-- `BTreeMap::new`. -/
def empty : OrdMap κ α := ⟨[], .nil⟩

instance : Inhabited (OrdMap κ α) := ⟨empty⟩

instance [DecidableEq α] : DecidableEq (OrdMap κ α) := fun m n =>
  decidable_of_iff (m.entries = n.entries) ⟨fun h => by cases m; cases n; congr, fun h => h ▸ rfl⟩

def get? (m : OrdMap κ α) (k : κ) : Option α := lookupList k m.entries

/-- `contains_key`. -/
def contains (m : OrdMap κ α) (k : κ) : Bool := (m.get? k).isSome

def insert (m : OrdMap κ α) (k : κ) (a : α) : OrdMap κ α :=
  ⟨insertList k a m.entries, increasing_insertList m.increasing⟩

/-- `remove`, without the removed value. -/
def erase (m : OrdMap κ α) (k : κ) : OrdMap κ α :=
  ⟨m.entries.filter fun e => e.1 ≠ k, m.increasing.filter _⟩

def size (m : OrdMap κ α) : Nat := m.entries.length

def keys (m : OrdMap κ α) : List κ := m.entries.map Prod.fst

def values (m : OrdMap κ α) : List α := m.entries.map Prod.snd

/-- `range(..=k).next_back()`. -/
def lastLE (m : OrdMap κ α) (k : κ) : Option (κ × α) :=
  (m.entries.filter fun e => e.1 ≤ k).getLast?

/-- `range(k..).next()`. -/
def firstGE (m : OrdMap κ α) (k : κ) : Option (κ × α) :=
  m.entries.find? fun e => k ≤ e.1

/-- `range(..k)`. -/
def below (m : OrdMap κ α) (k : κ) : List (κ × α) :=
  m.entries.filter fun e => e.1 < k

/-- The entries from key `k` on. `range(k..)` -/
def atLeast (m : OrdMap κ α) (k : κ) : List (κ × α) :=
  m.entries.filter fun e => k ≤ e.1

variable {m n : OrdMap κ α} {k k' : κ} {a : α}

@[simp] theorem entries_empty : (empty : OrdMap κ α).entries = [] := rfl

@[simp] theorem get?_empty : (empty : OrdMap κ α).get? k = none := rfl

theorem mem_entries : (k, a) ∈ m.entries ↔ m.get? k = some a := mem_iff_lookupList m.increasing

theorem get?_insert : (m.insert k a).get? k' = if k = k' then some a else m.get? k' :=
  lookupList_insertList k' m.increasing

@[simp] theorem get?_insert_self : (m.insert k a).get? k = some a := by
  rw [get?_insert, if_pos rfl]

theorem get?_insert_ne (h : k ≠ k') : (m.insert k a).get? k' = m.get? k' := by
  rw [get?_insert, if_neg h]

theorem get?_erase : (m.erase k).get? k' = if k = k' then none else m.get? k' := by
  refine Option.ext fun a => ?_
  rw [← mem_entries]
  simp only [erase, List.mem_filter, mem_entries, ne_eq, decide_not, Bool.not_eq_true',
    decide_eq_false_iff_not]
  by_cases h : k = k'
  · simp [h]
  · simp [h, Ne.symm h]

theorem mem_values : a ∈ m.values ↔ ∃ k, m.get? k = some a := by
  simp only [values, List.mem_map]
  exact ⟨fun ⟨e, he, h⟩ => ⟨e.1, mem_entries.1 (h ▸ he)⟩, fun ⟨k, h⟩ => ⟨(k, a), mem_entries.2 h, rfl⟩⟩

theorem contains_iff : m.contains k = true ↔ ∃ a, m.get? k = some a := by
  simp [contains, Option.isSome_iff_exists]

/-- Two strictly increasing lists with the same members are equal. -/
theorem eq_of_mem_iff {l l' : List (κ × α)} (h : KeysIncreasing l) (h' : KeysIncreasing l')
    (hm : ∀ e, e ∈ l ↔ e ∈ l') : l = l' := by
  induction l generalizing l' with
  | nil =>
    cases l' with
    | nil => rfl
    | cons hd tl => exact absurd ((hm hd).2 List.mem_cons_self) List.not_mem_nil
  | cons hd tl ih =>
    cases l' with
    | nil => exact absurd ((hm hd).1 List.mem_cons_self) List.not_mem_nil
    | cons hd' tl' =>
      obtain ⟨h1, h2⟩ := List.pairwise_cons.1 h
      obtain ⟨h1', h2'⟩ := List.pairwise_cons.1 h'
      have he : hd = hd' := by
        rcases List.mem_cons.1 ((hm hd).1 List.mem_cons_self) with h | h
        · exact h
        rcases List.mem_cons.1 ((hm hd').2 List.mem_cons_self) with h' | h'
        · exact h'.symm
        exact absurd (h1 _ h') (not_lt_of_gt (h1' _ h))
      subst he
      rw [ih h2 h2' fun e => ?_]
      have hne : ∀ {tl : List (κ × α)}, (∀ x ∈ tl, hd.1 < x.1) → hd ∉ tl :=
        fun hx hm => lt_irrefl _ (hx _ hm)
      have := hm e
      simp only [List.mem_cons] at this
      by_cases hd_eq : e = hd
      · subst hd_eq; exact iff_of_false (hne h1) (hne h1')
      · simpa [hd_eq] using this

theorem ext_get? (h : ∀ k, m.get? k = n.get? k) : m = n := by
  have : m.entries = n.entries := eq_of_mem_iff m.increasing n.increasing fun ⟨k, a⟩ => by
    rw [mem_entries, mem_entries, h]
  cases m; cases n; congr

/-- **The entries of a map build it.** -/
theorem foldl_insert_entries (m : OrdMap κ α) : m.entries.foldl (fun n e => n.insert e.1 e.2) empty = m := by
  have hfold : ∀ (l : List (κ × α)) (n : OrdMap κ α), KeysIncreasing (n.entries ++ l) →
      (l.foldl (fun n e => n.insert e.1 e.2) n).entries = n.entries ++ l := by
    intro l
    induction l with
    | nil => intro n _; exact (List.append_nil _).symm
    | cons e l ih =>
      intro n hinc
      have hlast : (n.insert e.1 e.2).entries = n.entries ++ [e] := insertList_last fun x hx =>
        (List.pairwise_append.1 hinc).2.2 x hx e List.mem_cons_self
      rw [List.foldl_cons, ih _ (by rwa [hlast, List.append_assoc, List.singleton_append]), hlast, List.append_assoc,
        List.singleton_append]
  exact ext_get? fun k => congrArg (lookupList k) (hfold m.entries empty m.increasing)

/-- A loop that inserts, where one key comes with one value. -/
theorem get?_foldl_insert {l : List β} {f : β → κ} {g : β → α} (hg : ∀ x ∈ l, ∀ y ∈ l, f x = f y → g x = g y)
    (m : OrdMap κ α) : (l.foldl (fun m x => m.insert (f x) (g x)) m).get? k = some a ↔
      (∃ x ∈ l, f x = k ∧ g x = a) ∨ ((∀ x ∈ l, f x ≠ k) ∧ m.get? k = some a) := by
  induction l generalizing m with
  | nil => simp
  | cons x l ih =>
    have hx : ∀ y ∈ l, f y = f x → g y = g x := fun y hy => hg y (List.mem_cons_of_mem _ hy) x List.mem_cons_self
    rw [List.foldl_cons, ih (fun y hy z hz => hg y (List.mem_cons_of_mem _ hy) z (List.mem_cons_of_mem _ hz)), get?_insert]
    by_cases hk : f x = k
    · subst hk
      rw [if_pos rfl, Option.some.injEq]
      constructor
      · rintro (⟨y, hy, hf, rfl⟩ | ⟨-, rfl⟩)
        · exact .inl ⟨y, List.mem_cons_of_mem _ hy, hf, rfl⟩
        · exact .inl ⟨x, List.mem_cons_self, rfl, rfl⟩
      · rintro (⟨y, hy, hf, rfl⟩ | ⟨hne, -⟩)
        · by_cases hin : ∃ z ∈ l, f z = f x
          · obtain ⟨z, hz, hzx⟩ := hin
            refine .inl ⟨z, hz, hzx, ?_⟩
            rcases List.mem_cons.1 hy with rfl | hy
            · exact hx z hz hzx
            · rw [hx z hz hzx, hx y hy hf]
          · rcases List.mem_cons.1 hy with rfl | hy
            · exact .inr ⟨fun z hz hzx => hin ⟨z, hz, hzx⟩, rfl⟩
            · exact absurd ⟨y, hy, hf⟩ hin
        · exact absurd rfl (hne x List.mem_cons_self)
    · rw [if_neg hk]
      simp only [List.mem_cons, exists_eq_or_imp, forall_eq_or_imp, hk, false_and, false_or, ne_eq, not_false_eq_true, true_and]

theorem length_insertList_of_mem {l : List (κ × α)} (h : KeysIncreasing l)
    (hk : (lookupList k l).isSome) : (insertList k a l).length = l.length := by
  induction l with
  | nil => simp [lookupList] at hk
  | cons hd tl ih =>
    obtain ⟨h1, h2⟩ := List.pairwise_cons.1 h
    simp only [lookupList] at hk
    simp only [insertList]
    split
    · rename_i hlt
      rw [if_neg hlt.ne', lookupList_none_of_lt fun e he => lt_trans hlt (h1 e he)] at hk
      simp at hk
    · split
      · rfl
      · rename_i hne
        rw [if_neg (Ne.symm hne)] at hk
        simp [ih h2 hk]

theorem length_insertList_le (l : List (κ × α)) : (insertList k a l).length ≤ l.length + 1 := by
  induction l with
  | nil => simp [insertList]
  | cons hd tl ih =>
    simp only [insertList]
    split
    · simp
    · split <;> simp [ih]

theorem size_insert_of_contains (h : m.contains k = true) : (m.insert k a).size = m.size :=
  length_insertList_of_mem m.increasing h

theorem size_insert_le : (m.insert k a).size ≤ m.size + 1 := length_insertList_le _

theorem erase_insert (h : m.get? k = none) : (m.insert k a).erase k = m := by
  refine ext_get? fun k' => ?_
  rw [get?_erase, get?_insert]
  by_cases hk : k = k'
  · simp [← hk, h]
  · simp [hk]

theorem mem_keys : k ∈ m.keys ↔ (m.get? k).isSome := by
  simp only [keys, List.mem_map, Option.isSome_iff_exists]
  exact ⟨fun ⟨e, he, h⟩ => ⟨e.2, mem_entries.1 (h ▸ he)⟩, fun ⟨a, h⟩ => ⟨(k, a), mem_entries.2 h, rfl⟩⟩

theorem nodup_keys (m : OrdMap κ α) : m.keys.Nodup :=
  List.pairwise_map.2 (m.increasing.imp fun h => h.ne)

/-- Keys of a map, each once, are no more than the map has. As many are all of them. -/
theorem keys_complete {l : List κ} (hl : l.Nodup) (hmem : ∀ k ∈ l, (m.get? k).isSome) :
    l.length ≤ m.size ∧ (l.length = m.size → ∀ k, k ∈ l ↔ (m.get? k).isSome) := by
  have hsub : l.Subperm m.keys := List.subperm_of_subset hl fun k hk => mem_keys.2 (hmem k hk)
  have hsize : m.keys.length = m.size := List.length_map _
  refine ⟨hsize ▸ hsub.length_le, fun hall k => ?_⟩
  rw [← mem_keys]
  exact (hsub.perm_of_length_le (hsize.trans hall.symm).le).mem_iff

/-! ## Range reads -/

theorem mem_below {e : κ × α} : e ∈ m.below k ↔ m.get? e.1 = some e.2 ∧ e.1 < k := by
  obtain ⟨k', a⟩ := e
  simp [below, mem_entries]

theorem firstGE_some {e : κ × α} (h : m.firstGE k = some e) :
    m.get? e.1 = some e.2 ∧ k ≤ e.1 ∧ ∀ e' ∈ m.entries, k ≤ e'.1 → e.1 ≤ e'.1 := by
  obtain ⟨hk, l₁, l₂, hl, hb⟩ := List.find?_eq_some_iff_append.1 h
  have hm : (e.1, e.2) ∈ m.entries := by rw [hl]; simp
  refine ⟨mem_entries.1 hm, by simpa using hk, fun e' he' hle => ?_⟩
  have hs := m.increasing
  rw [hl] at he' hs
  rcases List.mem_append.1 he' with h1 | h2
  · exact absurd hle (by simpa using hb e' h1)
  · rcases List.mem_cons.1 h2 with rfl | h2
    · exact le_refl _
    · exact (List.pairwise_cons.1 (List.pairwise_append.1 hs).2.1).1 e' h2 |>.le

theorem firstGE_none (h : m.firstGE k = none) : ∀ e ∈ m.entries, e.1 < k := fun e he => by
  simpa using List.find?_eq_none.1 h e he

theorem lastLE_some {e : κ × α} (h : m.lastLE k = some e) :
    m.get? e.1 = some e.2 ∧ e.1 ≤ k ∧ ∀ e' ∈ m.entries, e'.1 ≤ k → e'.1 ≤ e.1 := by
  obtain ⟨l, hl⟩ := List.getLast?_eq_some_iff.1 h
  have hm : e ∈ m.entries.filter fun e => e.1 ≤ k := by rw [hl]; simp
  obtain ⟨hm, hk⟩ := List.mem_filter.1 hm
  refine ⟨mem_entries.1 hm, by simpa using hk, fun e' he' hle => ?_⟩
  have hs : KeysIncreasing (m.entries.filter fun e => e.1 ≤ k) := m.increasing.filter _
  have he' : e' ∈ m.entries.filter fun e => e.1 ≤ k := List.mem_filter.2 ⟨he', by simpa using hle⟩
  rw [hl] at he' hs
  rcases List.mem_append.1 he' with h1 | h2
  · exact ((List.pairwise_append.1 hs).2.2 e' h1 e (by simp)).le
  · rw [List.mem_singleton.1 h2]

theorem lastLE_none (h : m.lastLE k = none) : ∀ e ∈ m.entries, k < e.1 := fun e he => by
  have := List.filter_eq_nil_iff.1 (List.getLast?_eq_none_iff.1 h) e he
  simpa using this

end OrdMap

/-! ## Lists of which no two elements share a key -/

section
variable {α κ : Type} {f : α → κ} {l : List α}

theorem nodup_map_concat {a : α} (hl : (l.map f).Nodup) (ha : ∀ x ∈ l, f x ≠ f a) : ((l ++ [a]).map f).Nodup := by
  rw [List.map_append, List.nodup_append]
  refine ⟨hl, List.nodup_singleton _, fun k hk k' hk' => ?_⟩
  obtain ⟨x, hx, rfl⟩ := List.mem_map.1 hk
  rw [List.mem_singleton.1 hk']
  exact ha x hx

theorem find?_unique [DecidableEq κ] (hl : (l.map f).Nodup) {k : κ} {a : α} :
    l.find? (fun x => decide (f x = k)) = some a ↔ a ∈ l ∧ f a = k := by
  constructor
  · intro h
    exact ⟨List.mem_of_find?_eq_some h, by simpa using List.find?_some h⟩
  · intro h
    cases hf : l.find? (fun x => decide (f x = k)) with
    | none => exact absurd h.2 (by simpa using List.find?_eq_none.1 hf a h.1)
    | some b =>
      have hb : f b = k := by simpa using List.find?_some hf
      rw [List.inj_on_of_nodup_map hl (List.mem_of_find?_eq_some hf) h.1 (hb.trans h.2.symm)]

end

theorem getElem?_concat_eq_some {α : Type} {l : List α} {a b : α} {i : Nat} :
    (l ++ [a])[i]? = some b ↔ l[i]? = some b ∨ i = l.length ∧ b = a := by
  by_cases hi : i < l.length
  · rw [List.getElem?_append_left hi]
    simp only [Nat.ne_of_lt hi, false_and, or_false]
  · rw [List.getElem?_append_right (not_lt.1 hi), List.getElem?_eq_none (not_lt.1 hi)]
    by_cases he : i = l.length
    · simp [he, eq_comm]
    · have hne : i - l.length ≠ 0 := by omega
      simp [he, hne]

end DoubleEntry.Core
