import DoubleEntry.Core.Codec
import DoubleEntry.L1Values.Date
import DoubleEntry.L1Values.Label
import DoubleEntry.L1Values.Money

/-!
# What the canonical encoding determines

Each writer is self-delimiting on the values its width holds, so an encoding made
of writers one after another can be read back field by field.

**Assumptions.** Integers fit their width, texts and lists are shorter than `2 ^ 64`, and the
bytes of a digest can be told from what follows them.

**Results.**
* `selfDelimiting_leBytes`, `selfDelimiting_writeI32`, `selfDelimiting_writeI64`: integers.
* `selfDelimiting_writeBytes`, `selfDelimiting_writeStr`, `selfDelimiting_writeSeq`: what comes
  behind its length.
* `selfDelimiting_currency`, `Label.length_utf8_lt`: the values of the ledger that have a bound
  of their own.
-/
namespace DoubleEntry.L1

open DoubleEntry.Core

theorem length_leBytes (w n : Nat) : (leBytes w n).length = w := by
  induction w generalizing n with
  | zero => rfl
  | succ w ih => rw [leBytes, List.length_cons, ih]

theorem leBytes_injective {w : Nat} : ∀ {m n : Nat}, m < 256 ^ w → n < 256 ^ w → leBytes w m = leBytes w n → m = n := by
  induction w with
  | zero => intro m n hm hn _; omega
  | succ w ih =>
    intro m n hm hn h
    rw [leBytes, leBytes, List.cons.injEq] at h
    rw [pow_succ] at hm hn
    have hhigh := ih (by omega) (by omega) h.2
    have hlow := congrArg UInt8.toNat h.1
    simp only [UInt8.toNat_ofNat'] at hlow
    omega

/-- Unsigned integers of `w` bytes. -/
theorem selfDelimiting_leBytes (w : Nat) : SelfDelimiting (fun n => n < 256 ^ w) (leBytes w) :=
  .ofWidth (length_leBytes w) fun _ _ hm hn => leBytes_injective hm hn

theorem selfDelimiting_writeI64 : SelfDelimiting FitsI64 writeI64 := by
  refine .ofWidth (fun n => length_leBytes 8 _) fun m n hm hn h => ?_
  have hmod : ∀ n : Int, (n % ((256 ^ 8 : Nat) : Int)).toNat < 256 ^ 8 := fun n => by omega
  have h := leBytes_injective (hmod m) (hmod n) h
  simp only [FitsI64, i64Min, i64Max] at hm hn
  omega

theorem selfDelimiting_writeI32 : SelfDelimiting (fun n : Int => -2 ^ 31 ≤ n ∧ n < 2 ^ 31) writeI32 := by
  refine .ofWidth (fun n => length_leBytes 4 _) fun m n hm hn h => ?_
  have hmod : ∀ n : Int, (n % ((256 ^ 4 : Nat) : Int)).toNat < 256 ^ 4 := fun n => by omega
  have h := leBytes_injective (hmod m) (hmod n) h
  omega

theorem selfDelimiting_writeU8 : SelfDelimiting (fun n => n < 256) writeU8 := selfDelimiting_leBytes 1

theorem selfDelimiting_writeBytes : SelfDelimiting (fun v : Bytes => v.length < 2 ^ 64) writeBytes := by
  intro a b x y ha hb e
  simp only [writeBytes, List.append_assoc] at e
  obtain ⟨hlen, hrest⟩ := selfDelimiting_leBytes 8 _ _ _ _ (by omega) (by omega) e
  exact List.append_inj hrest hlen

theorem selfDelimiting_utf8EncodeChar : SelfDelimiting (fun _ => True) String.utf8EncodeChar := by
  intro a b x y _ _ e
  have hdecode : ∀ (c : Char) (z : Bytes), ((String.utf8EncodeChar c ++ z).toByteArray).utf8DecodeChar? 0 = some c :=
    fun c z => by rw [List.toByteArray_append]; exact ByteArray.utf8DecodeChar?_utf8EncodeChar_append
  obtain rfl : a = b := Option.some.inj ((hdecode a x).symm.trans (e ▸ hdecode b y))
  exact ⟨rfl, List.append_cancel_left e⟩

theorem utf8_injective {s t : String} (h : utf8 s = utf8 t) : s = t :=
  String.ext (selfDelimiting_utf8EncodeChar.flatMap_injective (fun _ => String.utf8EncodeChar_ne_nil)
    (fun _ _ => trivial) (fun _ _ => trivial) h)

/-- Texts whose bytes a `u64` can count. -/
theorem selfDelimiting_writeStr : SelfDelimiting (fun s : String => (utf8 s).length < 2 ^ 64) writeStr :=
  selfDelimiting_writeBytes.comp (k := utf8) (fun _ h => h) fun _ _ => utf8_injective

theorem length_utf8_le (s : String) : (utf8 s).length ≤ 4 * s.toList.length := by
  unfold utf8
  induction s.toList with
  | nil => simp
  | cons c cs ih =>
    have hc : (String.utf8EncodeChar c).length ≤ 4 := by
      rw [String.length_utf8EncodeChar]
      exact c.utf8Size_le_four
    rw [List.flatMap_cons, List.length_append, List.length_cons]
    omega

theorem selfDelimiting_writeOption {α : Type} {ok : α → Prop} {f : α → Bytes} (h : SelfDelimiting ok f) :
    SelfDelimiting (fun o => ∀ a ∈ o, ok a) (writeOption f) := by
  intro a b x y ha hb e
  cases a with
  | none =>
    cases b with
    | none => exact ⟨rfl, List.append_cancel_left e⟩
    | some b =>
      simp only [writeOption, List.append_assoc] at e
      obtain ⟨hbyte, -⟩ := selfDelimiting_writeU8 0 1 _ _ (by decide) (by decide) e
      cases hbyte
  | some a =>
    cases b with
    | none =>
      simp only [writeOption, List.append_assoc] at e
      obtain ⟨hbyte, -⟩ := selfDelimiting_writeU8 1 0 _ _ (by decide) (by decide) e
      cases hbyte
    | some b =>
      simp only [writeOption, List.append_assoc] at e
      obtain ⟨-, hrest⟩ := selfDelimiting_writeU8 1 1 _ _ (by decide) (by decide) e
      obtain ⟨rfl, hxy⟩ := h a b x y (ha a rfl) (hb b rfl) hrest
      exact ⟨rfl, hxy⟩

/-- Lists that a `u64` can count. -/
theorem selfDelimiting_writeSeq {α : Type} {ok : α → Prop} {f : α → Bytes} (h : SelfDelimiting ok f) :
    SelfDelimiting (fun l : List α => l.length < 2 ^ 64 ∧ ∀ a ∈ l, ok a) (writeSeq f) := by
  intro a b x y ⟨ha, hoka⟩ ⟨hb, hokb⟩ e
  simp only [writeSeq, List.append_assoc] at e
  obtain ⟨hlen, hrest⟩ := selfDelimiting_leBytes 8 _ _ _ _ (by omega) (by omega) e
  exact h.flatMap hoka hokb hlen hrest

/-! ## Values -/

/-- A label has at most `maxLabelLen` characters. -/
theorem Label.length_utf8_lt (l : Label) : (utf8 l.text).length < 2 ^ 64 := by
  have hle : l.text.toList.length ≤ maxLabelLen := by
    have h := l.checked
    unfold Label.check at h
    split at h
    · cases h
    · split at h
      · cases h
      · omega
  have := length_utf8_le l.text
  unfold maxLabelLen at hle
  omega

theorem selfDelimiting_label : SelfDelimiting (fun _ => True) (Canonical.encode : Label → Bytes) :=
  selfDelimiting_writeStr.comp (k := Label.text) (fun l _ => l.length_utf8_lt) fun _ _ h => Label.text_injective h

theorem selfDelimiting_dimensions : SelfDelimiting (fun _ => True) (Canonical.encode : Dimensions → Bytes) := by
  have hseq := selfDelimiting_writeSeq (selfDelimiting_label.pair selfDelimiting_label)
  refine hseq.comp (k := fun d : Dimensions => d.axes.entries) (fun d _ => ⟨?_, fun _ _ => ⟨trivial, trivial⟩⟩) fun a b h => ?_
  · have hsize := d.bounded
    unfold OrdMap.size maxDimensions at hsize
    omega
  · exact Dimensions.ext_entries h

theorem selfDelimiting_currency : SelfDelimiting (fun _ => True) Currency.asBytes := by
  have hlen : ∀ c : Currency, c.asBytes.length = 3 := fun _ => rfl
  refine .ofWidth hlen fun a b _ _ h => ?_
  cases a
  cases b
  simp only [Currency.asBytes, List.cons.injEq, and_true] at h
  obtain ⟨rfl, rfl, rfl⟩ := h
  rfl

end DoubleEntry.L1
