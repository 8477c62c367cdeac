import Mathlib

/-!
# A list of parties, one of which moves

`l.set i b` is what a step of the party in slot `i` leaves, `l.eraseIdx i` are the
others. Up to order both lists are the party and the others, so that a statement
about all parties, about every two of them or about what they hold together is
one about the party that moves and one about the rest.

**Results.**
* `perm_slot`, `perm_set_slot`: the list before the step and after it.
* `forall_slot`, `pairwise_slot`, `flatMap_slot`, and the same for `set`: what holds of all, of
  every two, of what they hold together.
-/
namespace DoubleEntry.Core

variable {α β : Type} {l : List α} {i : Nat} {a b : α}

theorem perm_slot (h : l[i]? = some a) : l.Perm (a :: l.eraseIdx i) := by
  obtain ⟨hi, rfl⟩ := List.getElem?_eq_some_iff.1 h
  exact (List.getElem_cons_eraseIdx_perm hi).symm

theorem perm_set_slot (h : l[i]? = some a) (b : α) : (l.set i b).Perm (b :: l.eraseIdx i) :=
  List.set_perm_cons_eraseIdx (List.getElem?_eq_some_iff.1 h).1 b

theorem forall_slot {p : α → Prop} (h : l[i]? = some a) : (∀ c ∈ l, p c) ↔ p a ∧ ∀ c ∈ l.eraseIdx i, p c := by
  rw [← List.forall_mem_cons]
  exact forall_congr' fun c => by rw [(perm_slot h).mem_iff]

theorem forall_set_slot {p : α → Prop} (h : l[i]? = some a) :
    (∀ c ∈ l.set i b, p c) ↔ p b ∧ ∀ c ∈ l.eraseIdx i, p c := by
  rw [← List.forall_mem_cons]
  exact forall_congr' fun c => by rw [(perm_set_slot h b).mem_iff]

section
variable {R : α → α → Prop}

theorem pairwise_slot (hR : ∀ {x y}, R x y → R y x) (h : l[i]? = some a) :
    l.Pairwise R ↔ (∀ c ∈ l.eraseIdx i, R a c) ∧ (l.eraseIdx i).Pairwise R := by
  rw [(perm_slot h).pairwise_iff hR, List.pairwise_cons]

theorem pairwise_set_slot (hR : ∀ {x y}, R x y → R y x) (h : l[i]? = some a) :
    (l.set i b).Pairwise R ↔ (∀ c ∈ l.eraseIdx i, R b c) ∧ (l.eraseIdx i).Pairwise R := by
  rw [(perm_set_slot h b).pairwise_iff hR, List.pairwise_cons]

end

theorem flatMap_slot (h : l[i]? = some a) (f : α → List β) : (l.flatMap f).Perm (f a ++ (l.eraseIdx i).flatMap f) := by
  rw [← List.flatMap_cons]
  exact (perm_slot h).flatMap_right f

theorem flatMap_set_slot (h : l[i]? = some a) (f : α → List β) :
    ((l.set i b).flatMap f).Perm (f b ++ (l.eraseIdx i).flatMap f) := by
  rw [← List.flatMap_cons]
  exact (perm_set_slot h b).flatMap_right f

end DoubleEntry.Core
