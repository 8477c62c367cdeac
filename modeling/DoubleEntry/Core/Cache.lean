import DoubleEntry.Core.LTS

/-!
# Caches over a store

Clients read values, each from the state the store is in and from the values they hold, and
save any of them in a cache, whenever they like: by then the store may be in another state.
`LTS.cached` adds this to a system.

Where what a value says of the store stays true with every step, and so what a cache of such
values says, the cache is true of the state the store is in now (`cached_inductive`).

**Assumptions.** An invariant of the store; `Good`, kept by its steps, of each value that is
read; and that `save` keeps `Sound`, what a cache of good values is.

**Results.**
* `cached_inductive`: of the store, of what is held and of what is cached, in every state.
* `Run.cached`, `Reachable.cached`: a run of the store alone is one of the store with a cache.
-/
namespace DoubleEntry.Core

/-- A store, the values its clients hold, and a cache. -/
structure Cached (S V R : Type) where
  store : S
  held : List V
  cache : R

inductive CacheStep (L V : Type)
  | store (l : L)
  | read (v : V)
  | save (v : V)

namespace LTS

variable {S L V R : Type} {T : LTS S L} {reads : S → List V → V → Prop} {empty : R} {save : R → V → R}

/-- The steps of the store, of clients that read, and of clients that save. -/
def cached (T : LTS S L) (reads : S → List V → V → Prop) (empty : R) (save : R → V → R) :
    LTS (Cached S V R) (CacheStep L V) where
  init s := T.init s.store ∧ s.held = [] ∧ s.cache = empty
  step s x s' :=
    match x with
    | .store l => ∃ u, T.step s.store l u ∧ s' = { s with store := u }
    | .read v => reads s.store s.held v ∧ s' = { s with held := v :: s.held }
    | .save v => v ∈ s.held ∧ s' = { s with cache := save s.cache v }

/-- **What a cache holds is true of the store.** -/
theorem cached_inductive {I : S → Prop} (Good : S → V → Prop) (Sound : S → R → Prop) (hI : T.Inductive I)
    (hread : ∀ s held v, I s → (∀ w ∈ held, Good s w) → reads s held v → Good s v)
    (hstays : ∀ s l s', I s → T.step s l s' → (∀ v, Good s v → Good s' v) ∧ ∀ cache, Sound s cache → Sound s' cache)
    (hempty : ∀ s, Sound s empty)
    (hsave : ∀ s cache v, I s → Good s v → Sound s cache → Sound s (save cache v)) :
    (T.cached reads empty save).Inductive fun s => I s.store ∧ (∀ v ∈ s.held, Good s.store v) ∧ Sound s.store s.cache where
  init := by
    rintro ⟨s, held, cache⟩ ⟨hs, rfl, rfl⟩
    exact ⟨hI.init s hs, fun v hv => (List.not_mem_nil hv).elim, hempty s⟩
  step := by
    rintro s x s' ⟨hs, hheld, hcache⟩ st
    cases x with
    | store l =>
      obtain ⟨u, hu, rfl⟩ := st
      obtain ⟨hgood, hsound⟩ := hstays _ _ _ hs hu
      exact ⟨hI.step _ _ _ hs hu, fun v hv => hgood v (hheld v hv), hsound _ hcache⟩
    | read v =>
      obtain ⟨hv, rfl⟩ := st
      exact ⟨hs, List.forall_mem_cons.2 ⟨hread _ _ v hs hheld hv, hheld⟩, hcache⟩
    | save v =>
      obtain ⟨hv, rfl⟩ := st
      exact ⟨hs, hheld, hsave _ _ v hs (hheld v hv) hcache⟩

theorem Run.cached {s u : S} {ls : List L} (r : T.Run s ls u) (reads : S → List V → V → Prop) (empty : R)
    (save : R → V → R) (held : List V) (cache : R) :
    (T.cached reads empty save).Run ⟨s, held, cache⟩ (ls.map .store) ⟨u, held, cache⟩ := by
  induction r with
  | nil s => exact .nil _
  | cons st _ ih => exact .cons ⟨_, st, rfl⟩ ih

theorem Reachable.cached {u : S} (h : T.Reachable u) (reads : S → List V → V → Prop) (empty : R) (save : R → V → R) :
    (T.cached reads empty save).Reachable ⟨u, [], empty⟩ := by
  obtain ⟨s, ls, hs, r⟩ := h
  exact ⟨⟨s, [], empty⟩, _, ⟨hs, rfl, rfl⟩, r.cached reads empty save [] empty⟩

end LTS

end DoubleEntry.Core
