import DoubleEntry.Core.OrdMap

/-!
# Scans of ordered maps

A scan that starts at a key and stops at the first entry that fails a test. Where
the entries that pass lie side by side, it reads all of them and no other
(`OrdMap.scan_eq_filter`). The extensions of a list are such entries: in the order of
lists, what lies between a list and an extension of it extends it as well
(`prefix_of_between`).

**Results.**
* `scan_eq_filter`, `skip_eq_filter`: a scan, and a scan behind its first key.
* `prefix_le`, `prefix_of_between`: extensions of a list lie side by side.
-/
namespace DoubleEntry.Core

/-! ## Lists -/

section
variable {α : Type} {p : α → Bool} {l : List α}

theorem takeWhile_eq_filter (h : l.Pairwise fun a b => p b = true → p a = true) : l.takeWhile p = l.filter p := by
  induction l with
  | nil => rfl
  | cons a l ih =>
    obtain ⟨ha, hl⟩ := List.pairwise_cons.1 h
    by_cases hp : p a = true
    · rw [List.takeWhile_cons_of_pos hp, List.filter_cons_of_pos hp, ih hl]
    · rw [List.takeWhile_cons_of_neg hp, List.filter_cons_of_neg hp]
      exact (List.filter_eq_nil_iff.2 fun b hb hpb => hp (ha b hb hpb)).symm

theorem dropWhile_eq_filter (h : l.Pairwise fun a b => p b = true → p a = true) :
    l.dropWhile p = l.filter fun a => !p a := by
  induction l with
  | nil => rfl
  | cons a l ih =>
    obtain ⟨ha, hl⟩ := List.pairwise_cons.1 h
    by_cases hp : p a = true
    · rw [List.dropWhile_cons_of_pos hp, List.filter_cons_of_neg (by simp [hp]), ih hl]
    · rw [List.dropWhile_cons_of_neg hp, List.filter_eq_self.2 fun b hb => ?_]
      rcases List.mem_cons.1 hb with rfl | hb
      · simpa using hp
      · simpa using fun hpb => hp (ha b hb hpb)

end

section
variable {α : Type} [LinearOrder α] {p q r : List α}

theorem prefix_le (h : p <+: q) : p ≤ q := by
  rw [← not_lt]
  induction p generalizing q with
  | nil => exact fun hlt => nomatch hlt
  | cons a p ih =>
    obtain ⟨s, rfl⟩ := h
    rw [List.cons_append, List.cons_lt_cons_iff]
    rintro (hlt | ⟨-, hlt⟩)
    · exact lt_irrefl a hlt
    · exact ih (List.prefix_append p s) hlt

theorem prefix_of_between (h : p <+: r) (hpq : p ≤ q) (hqr : q ≤ r) : p <+: q := by
  rw [← not_lt] at hpq hqr
  induction p generalizing q r with
  | nil => exact List.nil_prefix
  | cons a p ih =>
    obtain ⟨s, rfl⟩ := h
    cases q with
    | nil => exact absurd (List.nil_lt_cons a p) hpq
    | cons b q =>
      rw [List.cons_append, List.cons_lt_cons_iff, not_or, not_and] at hqr
      rw [List.cons_lt_cons_iff, not_or, not_and] at hpq
      obtain rfl : a = b := le_antisymm (not_lt.1 hpq.1) (not_lt.1 hqr.1)
      rw [List.cons_prefix_cons]
      exact ⟨rfl, ih (List.prefix_append p s) (hpq.2 rfl) (hqr.2 rfl)⟩

end

/-! ## Maps -/

namespace OrdMap

variable {κ α : Type} [LinearOrder κ] {m : OrdMap κ α} {k : κ} {p : κ → Bool}

theorem increasing_atLeast (m : OrdMap κ α) (k : κ) : KeysIncreasing (m.atLeast k) := m.increasing.filter _

theorem mem_atLeast {e : κ × α} : e ∈ m.atLeast k ↔ m.get? e.1 = some e.2 ∧ k ≤ e.1 := by
  rw [atLeast, List.mem_filter, decide_eq_true_iff, ← mem_entries]

/-- `range(k..).take_while(p)`, where what passes is from `k` on and without gaps. -/
theorem scan_eq_filter (hfirst : ∀ k', p k' = true → k ≤ k')
    (hgap : ∀ a b, k ≤ a → a ≤ b → p b = true → p a = true) :
    (m.atLeast k).takeWhile (fun e => p e.1) = m.entries.filter fun e => p e.1 := by
  rw [takeWhile_eq_filter, atLeast, List.filter_filter]
  · refine List.filter_congr fun e _ => ?_
    by_cases hp : p e.1 = true
    · simp [hp, hfirst _ hp]
    · simp [hp]
  · refine (increasing_atLeast m k).imp_of_mem fun {a b} ha _ hlt => ?_
    exact hgap a.1 b.1 (mem_atLeast.1 ha).2 hlt.le

/-- `range(k..).skip_while(== k)` -/
theorem skip_eq_filter : (m.atLeast k).dropWhile (fun e => e.1 = k) = (m.atLeast k).filter fun e => e.1 ≠ k := by
  rw [dropWhile_eq_filter]
  · exact List.filter_congr fun e _ => by simp
  · refine (increasing_atLeast m k).imp_of_mem fun {a b} ha _ hlt hb => ?_
    -- nothing is before the least key
    rw [decide_eq_true_iff] at hb
    exact absurd (hb ▸ hlt) (not_lt.2 (mem_atLeast.1 ha).2)

end OrdMap

end DoubleEntry.Core
