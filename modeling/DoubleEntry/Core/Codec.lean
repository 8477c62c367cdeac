import Mathlib

/-!
# Self-delimiting encodings

An encoding is self-delimiting on the values that meet `ok` when what follows a
value can be told from it: `f a ++ x` determines `a` and `x`. Encodings of a fixed
width are (`ofWidth`), and so are pairs, options behind a discriminant, lists whose
length is known and lists up to a terminator (`terminated`).

**Results.**
* `injective`: a self-delimiting encoding is injective.
* `ofWidth`, `comp`, `pair`, `between`, `flatMap`, `terminated`: how they are made.
* `flatMap_injective`: pieces that are not empty, one after another to the end, determine the
  list without its length.
-/
namespace DoubleEntry.Core

variable {α α' β : Type}

def SelfDelimiting (ok : α → Prop) (f : α → List β) : Prop :=
  ∀ a b x y, ok a → ok b → f a ++ x = f b ++ y → a = b ∧ x = y

namespace SelfDelimiting

variable {ok : α → Prop} {ok' : α' → Prop} {f : α → List β} {g : α' → List β}

theorem injective (h : SelfDelimiting ok f) {a b : α} (ha : ok a) (hb : ok b) (e : f a = f b) : a = b :=
  (h a b [] [] ha hb (by rw [e])).1

theorem ofWidth {w : Nat} (hw : ∀ a, (f a).length = w) (hf : ∀ a b, ok a → ok b → f a = f b → a = b) :
    SelfDelimiting ok f := by
  intro a b x y ha hb e
  obtain ⟨e, hxy⟩ := List.append_inj e ((hw a).trans (hw b).symm)
  exact ⟨hf a b ha hb e, hxy⟩

theorem comp (h : SelfDelimiting ok f) {k : α' → α} (hk : ∀ a, ok' a → ok (k a)) (hinj : ∀ a b, k a = k b → a = b) :
    SelfDelimiting ok' fun a => f (k a) := fun a b x y ha hb e => by
  obtain ⟨e, hxy⟩ := h _ _ x y (hk a ha) (hk b hb) e
  exact ⟨hinj a b e, hxy⟩

theorem pair (h : SelfDelimiting ok f) (h' : SelfDelimiting ok' g) :
    SelfDelimiting (fun p : α × α' => ok p.1 ∧ ok' p.2) fun p => f p.1 ++ g p.2 := by
  intro ⟨a, b⟩ ⟨a', b'⟩ x y ⟨ha, hb⟩ ⟨ha', hb'⟩ e
  simp only [List.append_assoc] at e
  obtain ⟨rfl, hrest⟩ := h _ _ _ _ ha ha' e
  obtain ⟨rfl, hxy⟩ := h' _ _ _ _ hb hb' hrest
  exact ⟨rfl, hxy⟩

theorem between (h : SelfDelimiting ok f) (u v : List β) : SelfDelimiting ok fun a => u ++ f a ++ v := by
  intro a b x y ha hb e
  simp only [List.append_assoc] at e
  obtain ⟨rfl, hrest⟩ := h _ _ _ _ ha hb (List.append_cancel_left e)
  exact ⟨rfl, List.append_cancel_left hrest⟩

theorem flatMap (h : SelfDelimiting ok f) {l l' : List α} (hl : ∀ a ∈ l, ok a) (hl' : ∀ a ∈ l', ok a)
    (hlen : l.length = l'.length) {x y : List β} (e : l.flatMap f ++ x = l'.flatMap f ++ y) : l = l' ∧ x = y := by
  induction l generalizing l' with
  | nil =>
    obtain rfl := List.length_eq_zero_iff.1 hlen.symm
    exact ⟨rfl, e⟩
  | cons a l ih =>
    cases l' with
    | nil => cases hlen
    | cons b l' =>
      simp only [List.flatMap_cons, List.append_assoc] at e
      obtain ⟨rfl, hrest⟩ := h _ _ _ _ (hl a List.mem_cons_self) (hl' b List.mem_cons_self) e
      obtain ⟨rfl, hxy⟩ := ih (fun c hc => hl c (List.mem_cons_of_mem _ hc)) (fun c hc => hl' c (List.mem_cons_of_mem _ hc))
        (Nat.succ.inj hlen) hrest
      exact ⟨rfl, hxy⟩

/-- Any two lists up to a terminator, which no element starts with. -/
theorem terminated (h : SelfDelimiting ok f) {e : β} (hhead : ∀ a, ok a → ∃ c s, f a = c :: s ∧ c ≠ e) :
    SelfDelimiting (fun l : List α => ∀ a ∈ l, ok a) fun l => l.flatMap f ++ [e] := by
  intro l
  induction l with
  | nil =>
    intro l' x y _ hl' he
    cases l' with
    | nil => exact ⟨rfl, by simpa using he⟩
    | cons b l' =>
      obtain ⟨c, s, hfb, hc⟩ := hhead b (hl' b List.mem_cons_self)
      simp [hfb, Ne.symm hc] at he
  | cons a l ih =>
    intro l' x y hl hl' he
    cases l' with
    | nil =>
      obtain ⟨c, s, hfa, hc⟩ := hhead a (hl a List.mem_cons_self)
      simp [hfa, hc] at he
    | cons b l' =>
      simp only [List.flatMap_cons, List.append_assoc] at he
      obtain ⟨rfl, hrest⟩ := h _ _ _ _ (hl a List.mem_cons_self) (hl' b List.mem_cons_self) he
      obtain ⟨rfl, hxy⟩ := ih l' x y (fun c hc => hl c (List.mem_cons_of_mem _ hc))
        (fun c hc => hl' c (List.mem_cons_of_mem _ hc)) (by simpa using hrest)
      exact ⟨rfl, hxy⟩

/-- Any two lists, where no element has an empty encoding. -/
theorem flatMap_injective (h : SelfDelimiting ok f) (hne : ∀ a, f a ≠ []) {l l' : List α} (hl : ∀ a ∈ l, ok a)
    (hl' : ∀ a ∈ l', ok a) (e : l.flatMap f = l'.flatMap f) : l = l' := by
  induction l generalizing l' with
  | nil =>
    cases l' with
    | nil => rfl
    | cons b l' => simp [hne] at e
  | cons a l ih =>
    cases l' with
    | nil => simp [hne] at e
    | cons b l' =>
      simp only [List.flatMap_cons] at e
      obtain ⟨rfl, hrest⟩ := h _ _ _ _ (hl a List.mem_cons_self) (hl' b List.mem_cons_self) e
      rw [ih (fun c hc => hl c (List.mem_cons_of_mem _ hc)) (fun c hc => hl' c (List.mem_cons_of_mem _ hc)) hrest]

end SelfDelimiting

end DoubleEntry.Core
