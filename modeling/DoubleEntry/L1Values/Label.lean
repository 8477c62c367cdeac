import DoubleEntry.Core.OrdMap
import DoubleEntry.L1Values.Canonical

/-!
# Labels, identifiers and posting dimensions

`Label` is the validated short string behind every opaque identifier of the
engine; `PeriodId` and `LedgerId` wrap it. A value carries the proof that
`Label::new` accepts its text. `Dimensions` is an ordered map from axis to
value, at most `maxDimensions` of them.

A set of dimensions is built as the source builds it, one `set` after another.
* `set_last`: an axis behind those there are is added at the end.
* `fromPairs_entries`: a set is rebuilt from its entries, so that what is stored as rows, or
  as members of an object, is read back.
-/
namespace DoubleEntry.L1

open DoubleEntry.Core

/-- `char::is_control`: the general category Cc. -/
def isControl (c : Char) : Bool := c.toNat < 0x20 || (0x7f ≤ c.toNat && c.toNat < 0xa0)

/-- mirrors src/dimensions.rs:47 -/
def maxLabelLen : Nat := 64

/-- mirrors src/dimensions.rs:56 -/
def maxDimensions : Nat := 8

/-- mirrors src/dimensions.rs:60-73 -/
inductive DimensionError where
  | empty
  | tooLong
  | controlCharacter
  | tooManyDimensions
  deriving DecidableEq, Repr

/-- The checks of `Label::new`, in order.
mirrors src/dimensions.rs:97-108 -/
def Label.check (s : String) : Except DimensionError Unit :=
  if s.toList.isEmpty then .error .empty
  else if maxLabelLen < s.toList.length then .error .tooLong
  else if s.toList.any isControl then .error .controlCharacter
  else .ok ()

structure Label where
  text : String
  checked : Label.check text = .ok ()

/-- mirrors src/dimensions.rs:96-108 -/
def Label.new (s : String) : Except DimensionError Label :=
  match h : Label.check s with
  | .ok () => .ok ⟨s, h⟩
  | .error e => .error e

theorem Label.text_injective : Function.Injective Label.text := by
  rintro ⟨s, h⟩ ⟨t, h'⟩ rfl
  rfl

instance : LinearOrder Label := LinearOrder.lift' Label.text Label.text_injective

/-- mirrors src/dimensions.rs:138-142 -/
instance : Canonical Label := ⟨fun l => writeStr l.text⟩

/-- mirrors src/period.rs:56-78 -/
structure PeriodId where
  label : Label

instance : LinearOrder PeriodId := LinearOrder.lift' PeriodId.label fun ⟨_⟩ ⟨_⟩ h => congrArg _ h

instance : Canonical PeriodId := ⟨fun i => Canonical.encode i.label⟩

/-- mirrors src/period.rs:92-128 -/
structure LedgerId where
  label : Label
  deriving DecidableEq

instance : Canonical LedgerId := ⟨fun i => Canonical.encode i.label⟩

/-! ## Dimensions -/

/-- mirrors src/dimensions.rs:152-154 -/
structure Dimensions where
  axes : OrdMap Label Label
  bounded : axes.size ≤ maxDimensions
  deriving DecidableEq

namespace Dimensions

theorem ext_entries {a b : Dimensions} (h : a.axes.entries = b.axes.entries) : a = b := by
  obtain ⟨axes, _⟩ := a
  obtain ⟨axes', _⟩ := b
  obtain rfl : axes = axes' := OrdMap.ext_get? fun k => congrArg (OrdMap.lookupList k) h
  rfl

/-- mirrors src/dimensions.rs:159-161 -/
def none : Dimensions := ⟨.empty, Nat.zero_le _⟩

theorem set_bounded (d : Dimensions) {axis value : Label}
    (h : ¬(¬ d.axes.contains axis ∧ maxDimensions ≤ d.axes.size)) :
    (d.axes.insert axis value).size ≤ maxDimensions := by
  by_cases hc : d.axes.contains axis = true
  · rw [OrdMap.size_insert_of_contains hc]; exact d.bounded
  · have hle := OrdMap.size_insert_le (m := d.axes) (k := axis) (a := value)
    have hlt : d.axes.size < maxDimensions := by
      by_contra hn
      exact h ⟨hc, not_lt.1 hn⟩
    omega

/-- mirrors src/dimensions.rs:177-182 -/
def set (d : Dimensions) (axis value : Label) : Except DimensionError Dimensions :=
  if h : ¬ d.axes.contains axis ∧ maxDimensions ≤ d.axes.size then .error .tooManyDimensions
  else .ok ⟨d.axes.insert axis value, set_bounded d h⟩

/-- mirrors src/dimensions.rs:196-204 -/
def fromPairs (pairs : List (Label × Label)) : Except DimensionError Dimensions :=
  pairs.foldlM (fun out e => out.set e.1 e.2) .none

/-- mirrors src/dimensions.rs:208-210 -/
def get (d : Dimensions) (axis : Label) : Option Label := d.axes.get? axis

/-- mirrors src/dimensions.rs:214-216 -/
def contains (d : Dimensions) (axis : Label) : Bool := (d.get axis).isSome

theorem set_last {d target : Dimensions} {axis value : Label} {more : List (Label × Label)}
    (h : target.axes.entries = d.axes.entries ++ (axis, value) :: more) :
    ∃ d', d.set axis value = .ok d' ∧ d'.axes.entries = d.axes.entries ++ [(axis, value)] := by
  have hinc : KeysIncreasing (d.axes.entries ++ (axis, value) :: more) := h ▸ target.axes.increasing
  have hlast : ∀ e ∈ d.axes.entries, e.1 < axis := fun e he =>
    (List.pairwise_append.1 hinc).2.2 e he _ List.mem_cons_self
  have hsize : d.axes.size < maxDimensions := by
    have hle := target.bounded
    rw [OrdMap.size, h, List.length_append, List.length_cons] at hle
    rw [OrdMap.size]
    omega
  refine ⟨_, dif_neg fun hc => absurd hc.2 (not_le.2 hsize), ?_⟩
  exact OrdMap.insertList_last hlast

/-- **The entries of a set build it.** -/
theorem fromPairs_entries (d : Dimensions) : fromPairs d.axes.entries = .ok d := by
  have hfold : ∀ (l : List (Label × Label)) (out : Dimensions), d.axes.entries = out.axes.entries ++ l →
      l.foldlM (fun out e => out.set e.1 e.2) out = .ok d := by
    intro l
    induction l with
    | nil =>
      intro out h
      rw [List.append_nil] at h
      rw [List.foldlM_nil, ext_entries h]
      rfl
    | cons e l ih =>
      intro out h
      obtain ⟨next, hset, hnext⟩ := @set_last out d e.1 e.2 l h
      rw [List.foldlM_cons, hset]
      exact ih next (by rw [h, hnext, List.append_assoc, List.singleton_append])
  exact hfold _ .none rfl

end Dimensions

/-- mirrors src/dimensions.rs:240-249 -/
instance : Canonical Dimensions :=
  ⟨fun d => writeSeq (fun e => Canonical.encode e.1 ++ Canonical.encode e.2) d.axes.entries⟩

end DoubleEntry.L1
