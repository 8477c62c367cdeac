import Mathlib

/-!
# Numbers and bytes as text

What is rendered is read back: decimals (`parseUnsigned_toDigits`), bytes as hex
digits (`bytesOfHex_hexOfBytes`), two fields around a separator
(`splitOnce_append`), a list of them (`splitOn_intercalate` of the library) and groups of
given sizes (`splitOn_groups`).
What is read back determines what it was rendered from (`injective_of_read`).
Text is a list of characters, and `trim` drops the white space around it.

**Results.**
* `parseSigned_digits`: digits are read as their value, or refused when it does not fit.
* `ofDigitChars_append_zero`, `ofDigitChars_lt`: the value of digits behind one another.
* `length_hexOfBytes`, `not_mem_hexOfBytes`: hex digits have no separator among them.
* `eq_of_splitOnce`, `not_mem_of_mem_splitOn`: what text comes apart into.
-/
namespace DoubleEntry.Core

/-- A value that is read back from its text is determined by it. -/
theorem injective_of_read {α β : Type} {write : α → β} {r : β → Option α} (h : ∀ a, r (write a) = some a) :
    Function.Injective write := fun a b e => by
  have hread := congrArg r e
  rw [h, h] at hread
  exact Option.some.inj hread

/-! ## Decimals -/

/-- Rust's `from_str` on an unsigned integer of `w` bits: digits, perhaps behind a plus. -/
def parseUnsigned (w : Nat) (s : List Char) : Option Nat :=
  let digits := if s.head? = some '+' then s.tail else s
  if digits = [] ∨ ¬ digits.all Char.isDigit ∨ 2 ^ w ≤ Nat.ofDigitChars 10 digits 0 then none
  else some (Nat.ofDigitChars 10 digits 0)

theorem isDigit_of_mem_decimal {n : Nat} {c : Char} (h : c ∈ Nat.toDigits 10 n) : c.isDigit = true :=
  Nat.isDigit_of_mem_toDigits (by decide) (by decide) h

theorem not_mem_decimal {n : Nat} {c : Char} (h : c.isDigit = false) : c ∉ Nat.toDigits 10 n := fun hc => by
  rw [isDigit_of_mem_decimal hc] at h
  cases h

/-- **A number that fits is read back.** -/
theorem parseUnsigned_toDigits {w n : Nat} (h : n < 2 ^ w) : parseUnsigned w (Nat.toDigits 10 n) = some n := by
  have hplus : (Nat.toDigits 10 n).head? ≠ some '+' := fun hc =>
    not_mem_decimal (by decide) (List.mem_of_head? hc)
  have hall : (Nat.toDigits 10 n).all Char.isDigit = true := List.all_eq_true.2 fun _ hc => isDigit_of_mem_decimal hc
  have hvalue : Nat.ofDigitChars 10 (Nat.toDigits 10 n) 0 = n := Nat.ofDigitChars_ten_toDigits
  unfold parseUnsigned
  simp only [if_neg hplus, hall, hvalue]
  rw [if_neg (by simp [Nat.toDigits_ne_nil, h])]

/-- Rust's `from_str` on a signed integer of `w` bits: digits, perhaps behind a sign. -/
def parseSigned (w : Nat) (s : List Char) : Option Int :=
  let digits := if s.head? = some '-' ∨ s.head? = some '+' then s.tail else s
  if digits = [] ∨ ¬ digits.all Char.isDigit then none
  else
    let n : Int := Nat.ofDigitChars 10 digits 0
    let n := if s.head? = some '-' then -n else n
    if -2 ^ (w - 1) ≤ n ∧ n < 2 ^ (w - 1) then some n else none

theorem isDigit_head_ne {s : List Char} (h : ∀ c ∈ s, c.isDigit = true) {c : Char} (hc : c.isDigit = false) :
    s.head? ≠ some c := fun he => by
  rw [h c (List.mem_of_head? he)] at hc
  cases hc

/-- A text of digits is its value, if that fits. -/
theorem parseSigned_digits {w : Nat} {s : List Char} (hne : s ≠ []) (h : ∀ c ∈ s, c.isDigit = true) :
    parseSigned w s = if Nat.ofDigitChars 10 s 0 < 2 ^ (w - 1) then some (Nat.ofDigitChars 10 s 0 : Int) else none := by
  have hminus := isDigit_head_ne h (c := '-') (by decide)
  have hplus := isDigit_head_ne h (c := '+') (by decide)
  have hall : s.all Char.isDigit = true := List.all_eq_true.2 h
  have hlow : -2 ^ (w - 1) ≤ (Nat.ofDigitChars 10 s 0 : Int) := by
    have hpos : (0 : Int) < 2 ^ (w - 1) := by positivity
    omega
  have hcast : ((Nat.ofDigitChars 10 s 0 : Int) < 2 ^ (w - 1)) ↔ Nat.ofDigitChars 10 s 0 < 2 ^ (w - 1) := by
    exact_mod_cast Iff.rfl
  unfold parseSigned
  simp [hminus, hplus, hne, hall, hlow, hcast]

theorem ofDigitChars_append_zero (s t : List Char) :
    Nat.ofDigitChars 10 (s ++ t) 0 = Nat.ofDigitChars 10 s 0 * 10 ^ t.length + Nat.ofDigitChars 10 t 0 := by
  rw [Nat.ofDigitChars_append, Nat.ofDigitChars_eq_ofDigitChars_zero, Nat.mul_comm]

theorem isDigit_bounds {c : Char} (h : c.isDigit = true) : 48 ≤ c.toNat ∧ c.toNat ≤ 57 := by
  have hdigit : c.val ≥ 48 ∧ c.val ≤ 57 := by simpa [Char.isDigit] using h
  exact ⟨UInt32.le_iff_toNat_le.1 hdigit.1, UInt32.le_iff_toNat_le.1 hdigit.2⟩

theorem ofDigitChars_lt {s : List Char} (h : ∀ c ∈ s, c.isDigit = true) : Nat.ofDigitChars 10 s 0 < 10 ^ s.length := by
  induction s with
  | nil => simp
  | cons c s ih =>
    have hc : c.toNat - '0'.toNat < 10 := by
      have hbounds := isDigit_bounds (h c List.mem_cons_self)
      have hzero : '0'.toNat = 48 := rfl
      omega
    have hrest := ih fun d hd => h d (List.mem_cons_of_mem _ hd)
    have hsplit := ofDigitChars_append_zero [c] s
    have hone : Nat.ofDigitChars 10 [c] 0 = c.toNat - '0'.toNat := by simp [Nat.ofDigitChars_cons]
    rw [List.singleton_append, hone] at hsplit
    rw [hsplit, List.length_cons, pow_succ]
    have hpow : (c.toNat - '0'.toNat) * 10 ^ s.length ≤ 9 * 10 ^ s.length := Nat.mul_le_mul_right _ (by omega)
    omega

theorem ofDigitChars_replicate_zero (n : Nat) : Nat.ofDigitChars 10 (List.replicate n '0') 0 = 0 := by
  simp

/-! ## Hex -/

def hexVal (c : Char) : Option Nat :=
  if '0' ≤ c ∧ c ≤ '9' then some (c.toNat - '0'.toNat)
  else if 'a' ≤ c ∧ c ≤ 'f' then some (c.toNat - 'a'.toNat + 10)
  else if 'A' ≤ c ∧ c ≤ 'F' then some (c.toNat - 'A'.toNat + 10)
  else none

def hexOfBytes (bytes : List UInt8) : List Char :=
  bytes.flatMap fun b => [Nat.digitChar (b.toNat / 16), Nat.digitChar (b.toNat % 16)]

def bytesOfHex : List Char → Option (List UInt8)
  | [] => some []
  | [_] => none
  | hi :: lo :: rest =>
    match hexVal hi, hexVal lo, bytesOfHex rest with
    | some hi, some lo, some bytes => some (UInt8.ofNat (hi * 16 + lo) :: bytes)
    | _, _, _ => none

theorem hexVal_digitChar {n : Nat} (h : n < 16) : hexVal (Nat.digitChar n) = some n := by
  interval_cases n <;> rfl

/-- **Bytes are read back from their digits.** -/
theorem bytesOfHex_hexOfBytes (bytes : List UInt8) : bytesOfHex (hexOfBytes bytes) = some bytes := by
  induction bytes with
  | nil => rfl
  | cons b bytes ih =>
    have hlt : b.toNat < 256 := b.toNat_lt
    have hhi := hexVal_digitChar (n := b.toNat / 16) (by omega)
    have hlo := hexVal_digitChar (n := b.toNat % 16) (by omega)
    have hsum : b.toNat / 16 * 16 + b.toNat % 16 = b.toNat := by omega
    have hb : UInt8.ofNat b.toNat = b := UInt8.ofNat_toNat
    rw [hexOfBytes, List.flatMap_cons, ← hexOfBytes]
    simp only [List.cons_append, List.nil_append, bytesOfHex, hhi, hlo, ih, hsum, hb]

theorem hexOfBytes_injective : Function.Injective hexOfBytes := injective_of_read bytesOfHex_hexOfBytes

theorem length_hexOfBytes (bytes : List UInt8) : (hexOfBytes bytes).length = 2 * bytes.length := by
  induction bytes with
  | nil => rfl
  | cons b bytes ih =>
    rw [hexOfBytes, List.flatMap_cons, List.length_append, ← hexOfBytes, ih]
    simp only [List.length_cons, List.length_nil]
    omega

theorem not_mem_hexOfBytes {c : Char} (h : hexVal c = none) (bytes : List UInt8) : c ∉ hexOfBytes bytes := by
  intro hc
  obtain ⟨b, -, hcb⟩ := List.mem_flatMap.1 hc
  have hlt : b.toNat < 256 := b.toNat_lt
  have hhi := hexVal_digitChar (n := b.toNat / 16) (by omega)
  have hlo := hexVal_digitChar (n := b.toNat % 16) (by omega)
  rcases List.mem_pair.1 hcb with rfl | rfl
  · rw [hhi] at h
    cases h
  · rw [hlo] at h
    cases h

/-! ## White space -/

/-- `char::is_whitespace` -/
def isWhitespace (c : Char) : Bool :=
  (9 ≤ c.toNat && c.toNat ≤ 13) || (0x2000 ≤ c.toNat && c.toNat ≤ 0x200a) ||
    [0x20, 0x85, 0xa0, 0x1680, 0x2028, 0x2029, 0x202f, 0x205f, 0x3000].contains c.toNat

/-- `str::trim` -/
def trim (s : List Char) : List Char := ((s.dropWhile isWhitespace).reverse.dropWhile isWhitespace).reverse

theorem dropWhile_isWhitespace_eq {s : List Char} (h : ∀ c ∈ s, isWhitespace c = false) : s.dropWhile isWhitespace = s := by
  cases s with
  | nil => rfl
  | cons c s => exact List.dropWhile_cons_of_neg (by simp [h c List.mem_cons_self])

theorem trim_eq {s : List Char} (h : ∀ c ∈ s, isWhitespace c = false) : trim s = s := by
  rw [trim, dropWhile_isWhitespace_eq h, dropWhile_isWhitespace_eq fun c hc => h c (List.mem_reverse.1 hc),
    List.reverse_reverse]

/-- What stands after everything but the dropped end is in the dropped end. -/
theorem of_mem_drop_rdropWhile {p : Char → Bool} {s : List Char} {n : Nat} (h : (s.rdropWhile p).length ≤ n) {c : Char}
    (hc : c ∈ s.drop n) : p c = true := by
  rw [← List.rdropWhile_append_rtakeWhile (p := p) (l := s), List.drop_append,
    List.drop_eq_nil_of_le h, List.nil_append] at hc
  exact List.mem_rtakeWhile_imp (List.mem_of_mem_drop hc)

theorem isWhitespace_of_isDigit {c : Char} (h : c.isDigit = true) : isWhitespace c = false := by
  have hbounds := isDigit_bounds h
  simp only [isWhitespace, List.contains_eq_mem, List.mem_cons, List.not_mem_nil, or_false, Bool.or_eq_false_iff,
    Bool.and_eq_false_iff, decide_eq_false_iff_not]
  omega

/-! ## Separators -/

/-- Rust's `split_once`: what stands before and after the first `sep`. -/
def splitOnce (sep : Char) : List Char → Option (List Char × List Char)
  | [] => none
  | c :: s => if c = sep then some ([], s) else (splitOnce sep s).map fun p => (c :: p.1, p.2)

theorem splitOnce_append {sep : Char} {a : List Char} (h : sep ∉ a) (b : List Char) :
    splitOnce sep (a ++ sep :: b) = some (a, b) := by
  induction a with
  | nil => simp [splitOnce]
  | cons c a ih =>
    rw [List.mem_cons, not_or] at h
    simp [splitOnce, Ne.symm h.1, ih h.2]

theorem splitOnce_eq_none {sep : Char} {s : List Char} (h : sep ∉ s) : splitOnce sep s = none := by
  induction s with
  | nil => rfl
  | cons c s ih =>
    rw [List.mem_cons, not_or] at h
    simp [splitOnce, Ne.symm h.1, ih h.2]

theorem eq_of_splitOnce {sep : Char} {s a b : List Char} (h : splitOnce sep s = some (a, b)) : s = a ++ sep :: b := by
  induction s generalizing a with
  | nil => cases h
  | cons c s ih =>
    simp only [splitOnce] at h
    split at h
    · rename_i hc
      cases h
      rw [hc, List.nil_append]
    · obtain ⟨p, hp, he⟩ := Option.map_eq_some_iff.1 h
      cases he
      rw [List.cons_append, ← ih hp]

theorem not_sep_of_mem_splitOnPPrepend {p : Char → Bool} {s : List Char} :
    ∀ {acc : List Char}, (∀ x ∈ acc, p x = false) → ∀ part ∈ List.splitOnPPrepend p s acc, ∀ x ∈ part, p x = false := by
  induction s with
  | nil =>
    intro acc hacc part hpart x hx
    rw [List.splitOnPPrepend_nil, List.mem_singleton] at hpart
    rw [hpart, List.mem_reverse] at hx
    exact hacc x hx
  | cons c s ih =>
    intro acc hacc part hpart x hx
    rw [List.splitOnPPrepend_cons_eq_if] at hpart
    by_cases hc : p c = true
    · rw [if_pos hc] at hpart
      rcases List.mem_cons.1 hpart with rfl | hpart
      · exact hacc x (List.mem_reverse.1 hx)
      · exact ih (fun _ h => absurd h List.not_mem_nil) part hpart x hx
    · rw [if_neg hc] at hpart
      refine ih (fun y hy => ?_) part hpart x hx
      rcases List.mem_cons.1 hy with rfl | hy
      · simpa using hc
      · exact hacc y hy

/-- What is split at a separator has none. -/
theorem not_mem_of_mem_splitOn {sep : Char} {s part : List Char} (h : part ∈ s.splitOn sep) : sep ∉ part := fun hsep => by
  rw [List.splitOn_eq_splitOnP, List.splitOnP_eq_splitOnPPrepend] at h
  have hfalse := not_sep_of_mem_splitOnPPrepend (fun _ h => absurd h List.not_mem_nil) part h sep hsep
  simp at hfalse

/-! ## Groups -/

theorem mem_of_mem_splitLengths {sizes : List Nat} {s group : List Char} (hgroup : group ∈ sizes.splitLengths s) {c : Char}
    (hc : c ∈ group) : c ∈ s := by
  induction sizes generalizing s with
  | nil => cases hgroup
  | cons size sizes ih =>
    rw [List.splitLengths_cons] at hgroup
    rcases List.mem_cons.1 hgroup with rfl | hgroup
    · exact List.mem_of_mem_take hc
    · exact List.mem_of_mem_drop (ih hgroup)

/-- Text in groups of given sizes is split into its groups. -/
theorem splitOn_groups {sep : Char} {sizes : List Nat} {s : List Char} (hsep : sep ∉ s) (hsizes : sizes ≠ []) :
    ([sep].intercalate (sizes.splitLengths s)).splitOn sep = sizes.splitLengths s := by
  have hne : sizes.splitLengths s ≠ [] := fun h => by
    have hlen := List.length_splitLengths s sizes
    rw [h, List.length_nil] at hlen
    exact hsizes (List.length_eq_zero_iff.1 hlen.symm)
  exact List.splitOn_intercalate sep (fun group hgroup hc => hsep (mem_of_mem_splitLengths hgroup hc)) hne

end DoubleEntry.Core
