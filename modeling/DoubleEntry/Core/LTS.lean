import Mathlib

/-!
# Labelled transition systems

A system is a predicate on initial states and a step relation. `Run` is a
finite sequence of labelled steps, `Reachable` what a run from an initial state
can end in, and `Inductive` an invariant that the initial states have and every
step keeps.

`LTS.restrict` keeps the steps that meet a side condition, so that a result
about "every run whose steps all meet the condition" is a result about the
reachable states of the restricted system. `LTS.ofFn` is the system of a
partial step function, `exec` its runs as a fold.

**Results.**
* `Stable.run`, `Inductive.reachable`: an invariant, in every run and in every reachable state.
* `Run.rel`: a reflexive and transitive relation that every step respects, between the ends of a run.
* `Run.congr`: two systems with the same steps wherever an invariant holds have the same runs.
* `Reachable.of_restrict`, `Run.restrict`: between a system and its restriction.
* `reachable_of_exec`, `reachable_restrict_of_exec`: concrete runs, by evaluating the fold.
-/
namespace DoubleEntry.Core

structure LTS (S L : Type) where
  init : S → Prop
  step : S → L → S → Prop

namespace LTS

variable {S L : Type}

/-- A finite run and its labels. -/
inductive Run (T : LTS S L) : S → List L → S → Prop
  | nil (s : S) : Run T s [] s
  | cons {s t u : S} {l : L} {ls : List L} (h : T.step s l t) (r : Run T t ls u) : Run T s (l :: ls) u

def Reachable (T : LTS S L) (s : S) : Prop := ∃ s₀ ls, T.init s₀ ∧ T.Run s₀ ls s

/-- Kept by every step. -/
def Stable (T : LTS S L) (I : S → Prop) : Prop := ∀ s l t, I s → T.step s l t → I t

/-- Holds initially and is kept by every step. -/
structure Inductive (T : LTS S L) (I : S → Prop) : Prop where
  init : ∀ s, T.init s → I s
  step : T.Stable I

/-- The steps of `T` that meet `ok`. -/
def restrict (T : LTS S L) (ok : S → L → Prop) : LTS S L where
  init := T.init
  step s l t := T.step s l t ∧ ok s l

/-- The system of a partial step function. -/
def ofFn (init : S → Prop) (f : S → L → Option S) : LTS S L where
  init := init
  step s l t := f s l = some t

variable {T : LTS S L}

theorem Stable.run {I : S → Prop} (h : T.Stable I) {s t : S} {ls : List L} (r : T.Run s ls t)
    (hs : I s) : I t := by
  induction r with
  | nil => exact hs
  | cons st _ ih => exact ih (h _ _ _ hs st)

theorem Inductive.reachable {I : S → Prop} (h : T.Inductive I) {s : S} (r : T.Reachable s) : I s := by
  obtain ⟨s₀, ls, h₀, hr⟩ := r
  exact h.step.run hr (h.init s₀ h₀)

theorem Run.append {s t u : S} {ls ms : List L} (r : T.Run s ls t) (q : T.Run t ms u) :
    T.Run s (ls ++ ms) u := by
  induction r with
  | nil => exact q
  | cons st _ ih => exact .cons st (ih q)

theorem Run.single {s t : S} {l : L} (h : T.step s l t) : T.Run s [l] t := .cons h (.nil t)

theorem Reachable.run {s t : S} {ls : List L} (h : T.Reachable s) (r : T.Run s ls t) :
    T.Reachable t := by
  obtain ⟨s₀, ms, h₀, hr⟩ := h
  exact ⟨s₀, ms ++ ls, h₀, hr.append r⟩

theorem Reachable.step {s t : S} {l : L} (h : T.Reachable s) (st : T.step s l t) : T.Reachable t :=
  h.run (.single st)

theorem Reachable.of_init {s : S} (h : T.init s) : T.Reachable s := ⟨s, [], h, .nil s⟩

/-- A reflexive and transitive relation that every step from a state with the
stable property `I` respects holds between the ends of a run. -/
theorem Run.rel {I : S → Prop} (hI : T.Stable I) {R : S → S → Prop} (refl : ∀ s, R s s)
    (tr : ∀ s t u, R s t → R t u → R s u) (h : ∀ s l t, I s → T.step s l t → R s t)
    {s t : S} {ls : List L} (r : T.Run s ls t) (hs : I s) : R s t := by
  induction r with
  | nil s => exact refl s
  | cons st _ ih => exact tr _ _ _ (h _ _ _ hs st) (ih (hI _ _ _ hs st))

/-- Systems whose steps are the same from states with a stable property have the same runs
from them. -/
theorem Run.congr {U : LTS S L} {I : S → Prop} (hI : T.Stable I) (h : ∀ s l t, I s → (T.step s l t ↔ U.step s l t))
    {s t : S} {ls : List L} (hs : I s) : T.Run s ls t ↔ U.Run s ls t := by
  constructor
  · intro r
    induction r with
    | nil s => exact .nil s
    | cons st _ ih => exact .cons ((h _ _ _ hs).1 st) (ih (hI _ _ _ hs st))
  · intro r
    induction r with
    | nil s => exact .nil s
    | cons st _ ih =>
      have st := (h _ _ _ hs).2 st
      exact .cons st (ih (hI _ _ _ hs st))

theorem restrict_step {ok : S → L → Prop} {s t : S} {l : L} :
    (T.restrict ok).step s l t ↔ T.step s l t ∧ ok s l := Iff.rfl

theorem Run.of_restrict {ok : S → L → Prop} {s t : S} {ls : List L}
    (r : (T.restrict ok).Run s ls t) : T.Run s ls t := by
  induction r with
  | nil s => exact .nil s
  | cons st _ ih => exact .cons st.1 ih

theorem Reachable.of_restrict {ok : S → L → Prop} {s : S} (h : (T.restrict ok).Reachable s) :
    T.Reachable s := by
  obtain ⟨s₀, ls, h₀, hr⟩ := h
  exact ⟨s₀, ls, h₀, hr.of_restrict⟩

/-- A run whose labels meet the condition in any state. -/
theorem Run.restrict {ok : S → L → Prop} {s t : S} {ls : List L} (r : T.Run s ls t) (h : ∀ l ∈ ls, ∀ s, ok s l) :
    (T.restrict ok).Run s ls t := by
  induction r with
  | nil s => exact .nil s
  | cons st _ ih => exact .cons ⟨st, h _ List.mem_cons_self _⟩ (ih fun l hl => h l (List.mem_cons_of_mem _ hl))

/-! ## Systems of a step function -/

/-- The end of the run of `ls` from `s`, if every step is defined. -/
def exec (f : S → L → Option S) : S → List L → Option S
  | s, [] => some s
  | s, l :: ls => (f s l).bind fun t => exec f t ls

/-- A run does not depend on which states are initial. -/
theorem Run.ofFn {init init' : S → Prop} {f : S → L → Option S} {ls : List L} {s t : S}
    (h : (LTS.ofFn init f).Run s ls t) : (LTS.ofFn init' f).Run s ls t := by
  induction h with
  | nil s => exact .nil s
  | cons st _ ih => exact .cons st ih

theorem run_of_exec {init : S → Prop} {f : S → L → Option S} {ls : List L} {s t : S}
    (h : exec f s ls = some t) : (ofFn init f).Run s ls t := by
  induction ls generalizing s with
  | nil => cases h; exact .nil _
  | cons l ls ih =>
    simp only [exec, Option.bind_eq_some_iff] at h
    obtain ⟨u, hu, h⟩ := h
    exact .cons hu (ih h)

theorem reachable_of_exec {init : S → Prop} {f : S → L → Option S} {s t : S} (ls : List L)
    (h₀ : init s) (h : exec f s ls = some t) : (ofFn init f).Reachable t :=
  ⟨s, ls, h₀, run_of_exec h⟩

theorem exec_append {f : S → L → Option S} {ls ms : List L} {s : S} :
    exec f s (ls ++ ms) = (exec f s ls).bind fun t => exec f t ms := by
  induction ls generalizing s with
  | nil => rfl
  | cons l ls ih => simp only [List.cons_append, exec, ih, Option.bind_assoc]

/-- `f` where the side condition holds. -/
def guarded (ok : S → L → Prop) [∀ s l, Decidable (ok s l)] (f : S → L → Option S) (s : S) (l : L) : Option S :=
  if ok s l then f s l else none

theorem restrict_ofFn {init : S → Prop} {f : S → L → Option S} (ok : S → L → Prop) [∀ s l, Decidable (ok s l)] :
    (ofFn init f).restrict ok = ofFn init (guarded ok f) := by
  unfold restrict ofFn guarded
  congr
  funext s l t
  by_cases h : ok s l <;> simp [h]

theorem exec_guarded {ok : S → L → Prop} [∀ s l, Decidable (ok s l)] {f : S → L → Option S} {ls : List L} {s : S}
    (h : (exec (guarded ok f) s ls).isSome) : exec (guarded ok f) s ls = exec f s ls := by
  induction ls generalizing s with
  | nil => rfl
  | cons l ls ih =>
    simp only [exec, guarded] at h ⊢
    by_cases hl : ok s l
    · simp only [if_pos hl] at h ⊢
      cases hf : f s l with
      | none => rfl
      | some t =>
        rw [hf] at h
        exact ih h
    · rw [if_neg hl] at h
      cases h

theorem exec_getD {f : S → L → Option S} {s d : S} {ls : List L} (h : (exec f s ls).isSome) :
    exec f s ls = some ((exec f s ls).getD d) := by
  obtain ⟨t, ht⟩ := Option.isSome_iff_exists.1 h
  rw [ht, Option.getD_some]

section
variable {init : S → Prop} {f : S → L → Option S} {ok : S → L → Prop} [∀ s l, Decidable (ok s l)] {s d : S}
  {ls ms : List L}

theorem exec_guarded_getD (h : (exec (guarded ok f) s ls).isSome) :
    exec (guarded ok f) s ls = some ((exec f s ls).getD d) := by
  have hrun := exec_getD (d := d) h
  rwa [exec_guarded h] at hrun ⊢

theorem reachable_restrict_of_exec (h₀ : init s) (h : (exec (guarded ok f) s ls).isSome) :
    ((ofFn init f).restrict ok).Reachable ((exec f s ls).getD d) := by
  rw [restrict_ofFn]
  exact reachable_of_exec ls h₀ (exec_guarded_getD h)

theorem run_restrict_of_exec (h : (exec (guarded ok f) s ls).isSome) (h' : (exec (guarded ok f) s (ls ++ ms)).isSome) :
    ((ofFn init f).restrict ok).Run ((exec f s ls).getD d) ms ((exec f s (ls ++ ms)).getD d) := by
  have hrun := exec_guarded_getD (d := d) h'
  rw [exec_append, exec_guarded_getD (d := d) h] at hrun
  rw [restrict_ofFn]
  exact run_of_exec hrun

end

end LTS

end DoubleEntry.Core
