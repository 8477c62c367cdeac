import Mathlib

/-!
# Fallible computations

What a successful `Except` computation says about its parts.

Each operation has one lemma that says when it returns a value (`bind_eq_ok`, `map_eq_ok`,
`mapError_eq_ok`, `mapM_eq_ok`), so that a proof about a computation takes its steps in their
order and unfolds none of them.

**Results.**
* `bind_eq_error`: the first part that fails is what fails.
* `mapM_eq_ok`, `getElem?_of_mapM`: a list read element by element.
* `mapM_isOk`, `mapM_map_ok`: when every element is read.
* `mapM_eq_ok_self`, `mapM_ok_of_forall`: a list that is only checked.
-/
namespace DoubleEntry.Core

variable {ε ε' α β : Type}

theorem bind_eq_ok {x : Except ε α} {f : α → Except ε β} {b : β} :
    x >>= f = .ok b ↔ ∃ a, x = .ok a ∧ f a = .ok b := by
  cases x with
  | error e => simp [bind, Except.bind]
  | ok a => simp [bind, Except.bind]

theorem bind_eq_error {x : Except ε α} {f : α → Except ε β} {e : ε} :
    x >>= f = .error e ↔ x = .error e ∨ ∃ a, x = .ok a ∧ f a = .error e := by
  cases x with
  | error e => simp [bind, Except.bind]
  | ok a => simp [bind, Except.bind]

theorem map_eq_ok {x : Except ε α} {f : α → β} {b : β} : x.map f = .ok b ↔ ∃ a, x = .ok a ∧ f a = b := by
  cases x <;> simp [Except.map]

theorem mapError_eq_error {x : Except ε α} {f : ε → ε'} {e : ε'} :
    x.mapError f = .error e ↔ ∃ e', x = .error e' ∧ f e' = e := by
  cases x <;> simp [Except.mapError]

@[simp] theorem mapError_eq_ok {x : Except ε α} {f : ε → ε'} {a : α} :
    x.mapError f = .ok a ↔ x = .ok a := by
  cases x <;> simp [Except.mapError]

theorem toOption_eq_some {x : Except ε α} {a : α} : x.toOption = some a ↔ x = .ok a := by
  cases x <;> simp [Except.toOption]

def error? : Except ε α → Option ε
  | .error e => some e
  | .ok _ => none

theorem error?_eq_some {x : Except ε α} {e : ε} : error? x = some e ↔ x = .error e := by
  cases x <;> simp [error?]

/-- A check that returns what it is given: `mapM` returns the list. -/
theorem mapM_eq_ok_self {f : α → Except ε α} (hf : ∀ a b, f a = .ok b → b = a) :
    ∀ {l l' : List α}, l.mapM f = .ok l' → l' = l ∧ ∀ a ∈ l, f a = .ok a
  | [], l', h => by cases h; simp
  | a :: l, l', h => by
    rw [List.mapM_cons] at h
    obtain ⟨b, ha, hb⟩ := bind_eq_ok.1 h
    obtain ⟨bs, hl, hbs⟩ := bind_eq_ok.1 hb
    obtain ⟨rfl, hm⟩ := mapM_eq_ok_self hf hl
    obtain rfl := hf a b ha
    cases hbs
    exact ⟨rfl, by simpa [ha] using hm⟩

theorem mapM_ok_of_forall {f : α → Except ε α} : ∀ {l : List α}, (∀ a ∈ l, f a = .ok a) → l.mapM f = .ok l
  | [], _ => rfl
  | a :: l, h => by
    rw [List.mapM_cons, h a List.mem_cons_self,
      mapM_ok_of_forall fun b hb => h b (List.mem_cons_of_mem _ hb)]
    rfl

/-- Written by `g` and read back by `f`. -/
theorem mapM_map_ok {f : β → Except ε α} {g : α → β} {l : List α} (h : ∀ a ∈ l, f (g a) = .ok a) :
    (l.map g).mapM f = .ok l := by
  induction l with
  | nil => rfl
  | cons a l ih =>
    rw [List.map_cons, List.mapM_cons, h a List.mem_cons_self, ih fun b hb => h b (List.mem_cons_of_mem _ hb)]
    rfl

theorem mapM_isOk {f : α → Except ε β} {l : List α} (h : ∀ a ∈ l, ∃ b, f a = .ok b) : ∃ bs, l.mapM f = .ok bs := by
  induction l with
  | nil => exact ⟨[], rfl⟩
  | cons a l ih =>
    obtain ⟨b, hb⟩ := h a List.mem_cons_self
    obtain ⟨bs, hbs⟩ := ih fun x hx => h x (List.mem_cons_of_mem _ hx)
    exact ⟨b :: bs, by rw [List.mapM_cons, hb, hbs]; rfl⟩

theorem mapM_eq_ok {f : α → Except ε β} {l : List α} {bs : List β} :
    l.mapM f = .ok bs ↔ List.Forall₂ (fun a b => f a = .ok b) l bs := by
  induction l generalizing bs with
  | nil =>
    rw [List.mapM_nil, List.forall₂_nil_left_iff]
    exact ⟨fun h => by cases h; rfl, fun h => by rw [h]; rfl⟩
  | cons a l ih =>
    rw [List.mapM_cons, bind_eq_ok, List.forall₂_cons_left_iff]
    constructor
    · rintro ⟨b, hb, h⟩
      obtain ⟨bs', hbs', h⟩ := bind_eq_ok.1 h
      cases h
      exact ⟨b, bs', hb, ih.1 hbs', rfl⟩
    · rintro ⟨b, bs', hb, hbs', rfl⟩
      exact ⟨b, hb, bind_eq_ok.2 ⟨bs', ih.2 hbs', rfl⟩⟩

theorem getElem?_of_mapM {f : α → Except ε β} {l : List α} {bs : List β} (h : l.mapM f = .ok bs) {i : Nat} {a : α}
    (ha : l[i]? = some a) : ∃ b, bs[i]? = some b ∧ f a = .ok b := by
  have hall := mapM_eq_ok.1 h
  clear h
  induction hall generalizing i with
  | nil => simp at ha
  | cons hab _ ih =>
    cases i with
    | zero =>
      cases ha
      exact ⟨_, rfl, hab⟩
    | succ i => exact ih ha

end DoubleEntry.Core
