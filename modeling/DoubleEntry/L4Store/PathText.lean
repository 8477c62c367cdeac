import DoubleEntry.Core.Text
import DoubleEntry.L3Ledger.Disclosure
import DoubleEntry.L4Store.AccountTable

/-!
# Paths as text

A path is written as its segments around the separator, in the `path` column of both
backends and in a serialised proof, and read with `AccountPath::parse`. `from_segments`
checks a segment for everything but the separator.

**Assumptions.** Only for what a proof shows of its path, `Binding`: a proof that still verifies
is of the same path.

**Results.**
* `parse_display_iff_plain`: the text of a path with a separator in a segment is that of
  another one, or of none.
* `plain_parse`, `plain_parent`: a parsed path has no separator in a segment, nor have its
  ancestors.
* `path_text_iff`: a path is read back from its text, from its row and in a proof that
  still verifies exactly when no segment has the separator in it.
* `oneSegment_splits`: a path of one segment that is read back as one of two.
-/
namespace DoubleEntry.L3

open DoubleEntry.Core DoubleEntry.L1 DoubleEntry.L2

namespace AccountPath

variable {p q : AccountPath} {s : List Char}

theorem segments_of_parse (h : parse s = .ok p) : p.segments = (s.splitOn ':').map String.ofList := by
  unfold parse at h
  split at h
  · cases h
  · unfold fromSegments at h
    split at h
    · cases h
      rfl
    · cases h

theorem plain_parse (h : parse s = .ok p) : p.Plain := fun seg hseg => by
  rw [segments_of_parse h] at hseg
  obtain ⟨part, hpart, rfl⟩ := List.mem_map.1 hseg
  rw [String.toList_ofList]
  exact not_mem_of_mem_splitOn hpart

theorem plain_parent (hp : p.Plain) (h : p.parent = some q) : q.Plain := fun seg hseg => by
  unfold parent at h
  split at h
  · cases h
  · cases h
    exact hp seg (List.mem_of_mem_take hseg)

/-- Its text is that of the path, or of another one, or of none. -/
theorem parse_display_iff_plain : parse p.display = .ok p ↔ p.Plain := ⟨plain_parse, parse_display⟩

end AccountPath

/-! ## Proofs -/

/-- What is serialised of a proof: the path as its text. mirrors src/account.rs:129-142,577-584 -/
structure BindingProofText (H : Type) where
  id : AccountId
  path : List Char
  proof : InclusionProof H

namespace AccountBindingProof

variable {H : Type}

def serialize (p : AccountBindingProof H) : BindingProofText H := ⟨p.id, p.path.display, p.proof⟩

def deserialize (t : BindingProofText H) : Except PathError (AccountBindingProof H) :=
  (AccountPath.parse t.path).map fun path => ⟨t.id, path, t.proof⟩

theorem deserialize_serialize_eq_ok {p p' : AccountBindingProof H} : deserialize p.serialize = .ok p' ↔
    AccountPath.parse p.path.display = .ok p'.path ∧ p'.id = p.id ∧ p'.proof = p.proof := by
  rw [deserialize, map_eq_ok]
  constructor
  · rintro ⟨path, hpath, rfl⟩
    exact ⟨hpath, rfl, rfl⟩
  · rintro ⟨hpath, hid, hproof⟩
    refine ⟨p'.path, hpath, ?_⟩
    cases p'
    subst hid hproof
    rfl

variable [Blake3 H] [DecidableEq H]

omit [Blake3 H] [DecidableEq H] in
/-- Read back, a proof of a plain path is the same proof. -/
theorem deserialize_serialize {p : AccountBindingProof H} (hp : p.path.Plain) : deserialize p.serialize = .ok p :=
  deserialize_serialize_eq_ok.2 ⟨AccountPath.parse_display hp, rfl, rfl⟩

/-- A proof that verifies after being read back names the same path, so it was plain. -/
theorem plain_of_verifies (hb : Binding H) {r : AccountRegistry} {p p' : AccountBindingProof H}
    (h : p.verify r.commitment = true) (hread : deserialize p.serialize = .ok p') (h' : p'.verify r.commitment = true) :
    p.path.Plain := by
  obtain ⟨hpath, hid, -⟩ := deserialize_serialize_eq_ok.1 hread
  obtain ⟨a, ha, hap⟩ := binding_of_verify hb h
  obtain ⟨a', ha', hap'⟩ := binding_of_verify hb h'
  rw [hid, ha, Option.some.injEq] at ha'
  have hsame : p'.path = p.path := by rw [← hap, ← hap', ha']
  rw [← hsame]
  exact AccountPath.plain_parse hpath

end AccountBindingProof

end DoubleEntry.L3

namespace DoubleEntry.L4

open DoubleEntry.Core DoubleEntry.L1 DoubleEntry.L2 DoubleEntry.L3

namespace AccountTable

/-- What `register_account` stores is the row of the account, at the handle. -/
theorem get?_of_registerAccount {B : Backend} {t t' : AccountTable} {record : AccountRecord}
    (h : registerAccount B t record = .ok t') : t'.get? (B.handle record.id) = some (rowOf record.account) := by
  unfold registerAccount at h
  simp only at h
  split at h
  · cases h
  · split at h
    · cases h
    · cases hget : t.get? (B.handle record.id) with
      | some stored =>
        rw [hget] at h
        simp only at h
        split at h
        · cases h
          exact OrdMap.get?_insert_self
        · cases h
      | none =>
        rw [hget] at h
        simp only at h
        split at h
        · cases h
        · cases h
          exact OrdMap.get?_insert_self

theorem accountRecord_rowOf {id : AccountId} {a : Account} : accountRecord id (rowOf a) = .ok ⟨id, a⟩ ↔ a.path.Plain := by
  rw [← AccountPath.parse_display_iff_plain]
  simp only [accountRecord, rowOf]
  cases hparse : AccountPath.parse a.path.display with
  | error e => simp
  | ok path =>
    cases a
    simp

/-- **Exactly the plain paths survive as text**: parsed from their own text, read back from
the row that either backend stored, and in a proof that still verifies. -/
theorem path_text_iff (p : AccountPath) :
    (AccountPath.parse p.display = .ok p ↔ p.Plain) ∧
    (∀ (B : Backend) (t t' : AccountTable) (id : AccountId) (a : Account), a.path = p →
      registerAccount B t ⟨id, a⟩ = .ok t' →
      ((∃ row, t'.get? (B.handle id) = some row ∧ accountRecord (B.handle id) row = .ok ⟨B.handle id, a⟩) ↔ p.Plain)) ∧
    ∀ (H : Type) [Blake3 H] [DecidableEq H] (proof : AccountBindingProof H), proof.path = p →
      (p.Plain → ∀ head, proof.verify head = true →
        ∃ proof', .ok proof' = AccountBindingProof.deserialize proof.serialize ∧ proof'.verify head = true) ∧
      (Binding H → ∀ r : AccountRegistry, proof.verify r.commitment = true →
        (∃ proof', .ok proof' = AccountBindingProof.deserialize proof.serialize ∧ proof'.verify r.commitment = true) →
        p.Plain) := by
  refine ⟨AccountPath.parse_display_iff_plain, fun B t t' id a hpath hok => ?_, fun H _ _ proof hpath => ⟨?_, ?_⟩⟩
  · rw [get?_of_registerAccount hok, ← hpath, ← @accountRecord_rowOf (B.handle id)]
    exact ⟨fun ⟨row, hrow, hread⟩ => by rw [Option.some.inj hrow]; exact hread, fun hread => ⟨_, rfl, hread⟩⟩
  · intro hp head hv
    rw [← hpath] at hp
    exact ⟨proof, (AccountBindingProof.deserialize_serialize hp).symm, hv⟩
  · rintro hb r hv ⟨proof', hread, hv'⟩
    rw [← hpath]
    exact AccountBindingProof.plain_of_verifies hb hv hread.symm hv'

/-- A path of one segment is read back as one of two. -/
theorem oneSegment_splits : AccountPath.fromSegments ["Assets:Cash"] = .ok oneSegment ∧
    AccountPath.parse oneSegment.display = .ok cash.path ∧
    ¬ ∀ p : AccountPath, AccountPath.parse p.display = .ok p := by
  have hread : AccountPath.parse oneSegment.display = .ok cash.path := toOption_eq_some.1 (by decide)
  refine ⟨rfl, hread, fun h => ?_⟩
  have hsame := h oneSegment
  rw [hread, Except.ok.injEq] at hsame
  exact absurd (congrArg (fun p => p.segments.length) hsame) (by decide)

end AccountTable

end DoubleEntry.L4
