import DoubleEntry.Core.Except
import DoubleEntry.Core.Text
import DoubleEntry.L1Values.Money

/-!
# Amounts as text

`Amount::parse` and the decimal text of an amount, which is also what the
serialisation writes and reads.

Results:
* `parse_iff_literal`: which texts are accepted, and as what: a `Literal` with at
  most `P` significant digits after the point and at most `i64::MAX` minor units,
  as exactly its value.
* `parse_display_iff`: the text of an amount is read back, but for `i64::MIN`.
  The magnitude has to fit before the sign is restored.
* `fracMinor_eq`: the digit loop never overflows, at any scale of at most 18.
* `parse_written`: a literal is parsed as what it is, or refused for what does not fit.

**Assumptions.** None on the text: any characters, of any length. White space is that of
`char::is_whitespace`.
-/
namespace DoubleEntry.L1

open DoubleEntry.Core

/-- The overflow check of an `i64` operation. -/
def checkedI64 (n : Int) : Except MoneyError Int := if FitsI64 n then .ok n else .error .overflow

/-- The loop of `pow10`, with the steps that are left.
mirrors src/money.rs:434-445 -/
def pow10Loop : Nat → Int → Int
  | 0, acc => acc
  | n + 1, acc => if FitsI64 (acc * 10) then pow10Loop n (acc * 10) else i64Max

def pow10 (exp : Nat) : Int := pow10Loop exp 1

/-- `Amount::SCALE`. mirrors src/money.rs:201-204 -/
def Scale.units (P : Scale) : Int := pow10 P.val

theorem Scale.units_eq : ∀ P : Scale, P.units = 10 ^ P.val := by decide

theorem Scale.pow_le (P : Scale) : 10 ^ P.val ≤ 10 ^ 18 := Nat.pow_le_pow_right (by decide) (by omega)

namespace Amount

variable {P : Scale}

/-! ## Text of an amount -/

/-- `{}` of an `i64`. -/
def displayInt (n : Int) : List Char := (if n < 0 then ['-'] else []) ++ Nat.toDigits 10 n.natAbs

/-- mirrors src/money.rs:447-463 -/
def display (a : Amount P) : String :=
  String.ofList <|
    if P.val = 0 then displayInt a.minor
    else
      let magnitude := a.minor.natAbs
      let divisor := P.units.natAbs
      (if a.minor < 0 then ['-'] else []) ++ Nat.toDigits 10 (magnitude / divisor) ++
        ['.'] ++ (Nat.toDigits 10 (magnitude % divisor)).leftpad P.val '0'

/-- The digit loop of `parse`: the first digits after the point, as if followed by zeros.
mirrors src/money.rs:401-411 -/
def fracMinor (frac_part : List Char) (scale : Nat) : Except MoneyError Int :=
  (List.range scale).foldlM
    (fun frac i => do
      let digit := frac_part[i]?.elim 0 fun c => (c.toNat - '0'.toNat : Int)
      let f ← checkedI64 (frac * 10)
      checkedI64 (f + digit))
    0

/-- The digits before the point.
mirrors src/money.rs:395-399 -/
def parseWhole (int_part : List Char) : Except MoneyError Int :=
  if int_part = [] then .ok 0 else (parseSigned 64 int_part).elim (.error .overflow) .ok

/-- mirrors src/money.rs:362-425 -/
def parse (P : Scale) (s : String) : Except MoneyError (Amount P) :=
  let s := trim s.toList
  let negative := s.head? = some '-'
  let digits := if s.head? = some '-' ∨ s.head? = some '+' then s.tail else s
  if digits = [] then .error .invalidLiteral
  else
    let parts := (splitOnce '.' digits).getD (digits, [])
    let int_part := parts.1
    let frac_part := parts.2
    if int_part = [] ∧ frac_part = [] then .error .invalidLiteral
    else if ¬ int_part.all Char.isDigit ∨ ¬ frac_part.all Char.isDigit then .error .invalidLiteral
    -- trailing zeros are not precision
    else if P.val < (frac_part.rdropWhile (· = '0')).length then .error (.precisionLoss P.val)
    else do
      let whole ← parseWhole int_part
      let frac ← fracMinor frac_part P.val
      let w ← checkedI64 (whole * P.units)
      let value ← checkedI64 (w + frac)
      if negative then checked (-value) else checked value

/-! ## Literals -/

/-- A decimal literal: its sign, the digits before the point and those after it. -/
structure Literal where
  negative : Bool
  int : List Char
  frac : List Char
  digits : ∀ c ∈ int ++ frac, c.isDigit = true
  nonempty : int ++ frac ≠ []

namespace Literal

/-- A single sign or none, the digits, and at most one point. -/
def Written (l : Literal) (s : List Char) : Prop :=
  ∃ sign point, (if l.negative then sign = ['-'] else sign = [] ∨ sign = ['+']) ∧
    (point = ['.'] ∨ point = [] ∧ l.frac = []) ∧ s = sign ++ (l.int ++ point ++ l.frac)

/-- The digits after the point without trailing zeros. -/
def precision (l : Literal) : Nat := (l.frac.rdropWhile (· = '0')).length

def magnitude (l : Literal) : ℚ := Nat.ofDigitChars 10 (l.int ++ l.frac) 0 / 10 ^ l.frac.length

/-- The number a literal denotes. -/
def value (l : Literal) : ℚ := if l.negative then -l.magnitude else l.magnitude

/-- The digits after the point at a scale. -/
def scaled (l : Literal) (scale : Nat) : List Char := l.frac.take scale ++ List.replicate (scale - l.frac.length) '0'

/-- The magnitude in minor units, for a literal of that precision. -/
def minor (l : Literal) (scale : Nat) : Nat :=
  Nat.ofDigitChars 10 l.int 0 * 10 ^ scale + Nat.ofDigitChars 10 (l.scaled scale) 0

variable {l : Literal}

theorem length_scaled (scale : Nat) : (l.scaled scale).length = scale := by
  simp only [scaled, List.length_append, List.length_take, List.length_replicate]
  omega

theorem isDigit_scaled {scale : Nat} {c : Char} (hc : c ∈ l.scaled scale) : c.isDigit = true := by
  rcases List.mem_append.1 hc with hc | hc
  · exact l.digits c (List.mem_append_right _ (List.mem_of_mem_take hc))
  · rw [List.eq_of_mem_replicate hc]
    rfl

theorem scaled_succ (scale : Nat) : l.scaled (scale + 1) = l.scaled scale ++ [l.frac.getD scale '0'] := by
  by_cases h : scale < l.frac.length
  · have hsub : scale + 1 - l.frac.length = 0 := by omega
    have hsub' : scale - l.frac.length = 0 := by omega
    rw [scaled, scaled, hsub, hsub', List.getD_eq_getElem _ _ h, List.replicate_zero, List.append_nil, List.append_nil,
      List.take_append_getElem h]
  · have htake : l.frac.take (scale + 1) = l.frac.take scale := by
      rw [List.take_of_length_le (by omega), List.take_of_length_le (by omega)]
    have hsub : scale + 1 - l.frac.length = scale - l.frac.length + 1 := by omega
    have hnone : l.frac.getD scale '0' = '0' := List.getD_eq_default _ _ (by omega)
    rw [scaled, scaled, htake, hsub, hnone, List.replicate_succ', List.append_assoc]

/-- Nothing is dropped: what stands after the scale is zeros. -/
theorem scaled_value {scale : Nat} (h : l.precision ≤ scale) :
    Nat.ofDigitChars 10 (l.scaled scale) 0 * 10 ^ l.frac.length = Nat.ofDigitChars 10 l.frac 0 * 10 ^ scale := by
  by_cases hlen : l.frac.length ≤ scale
  · have hpow : 10 ^ (scale - l.frac.length) * 10 ^ l.frac.length = 10 ^ scale := by
      rw [← pow_add, Nat.sub_add_cancel hlen]
    rw [scaled, List.take_of_length_le hlen, ofDigitChars_append_zero, ofDigitChars_replicate_zero,
      List.length_replicate, Nat.add_zero, Nat.mul_assoc, hpow]
  · have hsub : scale - l.frac.length = 0 := by omega
    have hrest : l.frac.drop scale = List.replicate (l.frac.length - scale) '0' :=
      List.eq_replicate_iff.2 ⟨List.length_drop, fun c hc => of_decide_eq_true (of_mem_drop_rdropWhile h hc)⟩
    have hpow : 10 ^ scale * 10 ^ (l.frac.length - scale) = 10 ^ l.frac.length := by
      rw [← pow_add, Nat.add_sub_cancel' (by omega)]
    have hfrac : Nat.ofDigitChars 10 l.frac 0 =
        Nat.ofDigitChars 10 (l.frac.take scale) 0 * 10 ^ (l.frac.length - scale) := by
      conv_lhs => rw [← List.take_append_drop scale l.frac, hrest]
      rw [ofDigitChars_append_zero, ofDigitChars_replicate_zero, List.length_replicate, Nat.add_zero]
    rw [scaled, hsub, List.replicate_zero, List.append_nil, hfrac, ← hpow]
    ring

/-- **The minor units of a literal are its value.** -/
theorem minor_eq {scale : Nat} (h : l.precision ≤ scale) : (l.minor scale : ℚ) = l.magnitude * 10 ^ scale := by
  have hpos : (10 : ℚ) ^ l.frac.length ≠ 0 := by positivity
  have hfrac : (Nat.ofDigitChars 10 (l.scaled scale) 0 : ℚ) * 10 ^ l.frac.length =
      Nat.ofDigitChars 10 l.frac 0 * 10 ^ scale := by exact_mod_cast scaled_value h
  rw [magnitude, div_mul_eq_mul_div, eq_div_iff hpos, minor, ofDigitChars_append_zero]
  push_cast
  rw [add_mul, hfrac]
  ring

end Literal

/-! ## The digit loop -/

/-- The digits up to any scale fit, so the checks of the loop pass. -/
theorem fracMinor_eq (l : Literal) {n : Nat} (hn : n ≤ 18) :
    fracMinor l.frac n = .ok (Nat.ofDigitChars 10 (l.scaled n) 0 : Int) := by
  induction n with
  | zero => simp [fracMinor, Literal.scaled, pure, Except.pure]
  | succ n ih =>
    have hprev := ih (by omega)
    have hlt : Nat.ofDigitChars 10 (l.scaled (n + 1)) 0 < 10 ^ (n + 1) := by
      have h := ofDigitChars_lt (s := l.scaled (n + 1)) fun c hc => l.isDigit_scaled hc
      rwa [l.length_scaled] at h
    have hpow : 10 ^ (n + 1) ≤ 10 ^ 18 := Nat.pow_le_pow_right (by decide) hn
    have hdigit : (l.frac[n]?.elim (0 : Int) fun c => (c.toNat - '0'.toNat : Int)) =
        Nat.ofDigitChars 10 [l.frac.getD n '0'] 0 := by
      cases hc : l.frac[n]? with
      | none =>
        rw [List.getD_eq_getElem?_getD, hc]
        rfl
      | some c =>
        have hbounds := isDigit_bounds (l.digits c (List.mem_append_right _ (List.mem_of_getElem? hc)))
        have hzero : '0'.toNat = 48 := rfl
        rw [List.getD_eq_getElem?_getD, hc, Option.elim_some, Option.getD_some, Nat.ofDigitChars_cons, Nat.ofDigitChars_nil]
        omega
    have hsplit := ofDigitChars_append_zero (l.scaled n) [l.frac.getD n '0']
    rw [← l.scaled_succ, List.length_singleton, pow_one] at hsplit
    rw [fracMinor] at hprev ⊢
    rw [List.range_succ, List.foldlM_append, hprev]
    simp only [bind, Except.bind, List.foldlM_cons, List.foldlM_nil, hdigit, checkedI64]
    rw [if_pos (by unfold FitsI64 i64Min i64Max; omega)]
    simp only
    rw [if_pos (by unfold FitsI64 i64Min i64Max; omega)]
    rw [hsplit]
    rfl

/-! ## What `parse` accepts -/

variable {l : Literal} {s : String}

theorem i64_bound {n : Nat} : (n : Int) ≤ i64Max ↔ n < 2 ^ 63 := by
  unfold i64Max
  omega

theorem Literal.body_head {c : Char} (hc : c.isDigit = false) (hdot : c ≠ '.') {point : List Char}
    (hpoint : point = ['.'] ∨ point = [] ∧ l.frac = []) : (l.int ++ point ++ l.frac).head? ≠ some c := fun he => by
  have hmem := List.mem_of_head? he
  rw [List.append_assoc] at hmem
  have hdigit : c ∉ l.int ++ l.frac := fun h => by
    rw [l.digits c h] at hc
    cases hc
  rcases List.mem_append.1 hmem with h | h
  · exact hdigit (List.mem_append_left _ h)
  · rcases List.mem_append.1 h with h | h
    · rcases hpoint with rfl | ⟨rfl, -⟩
      · exact hdot (List.mem_singleton.1 h)
      · exact List.not_mem_nil h
    · exact hdigit (List.mem_append_right _ h)

/-- What is read off the text of a literal: the sign, and the digits. -/
theorem Literal.Written.strip {s : List Char} (h : l.Written s) :
    (s.head? = some '-' ↔ l.negative = true) ∧
      ∃ point, (point = ['.'] ∨ point = [] ∧ l.frac = []) ∧
        (if s.head? = some '-' ∨ s.head? = some '+' then s.tail else s) = l.int ++ point ++ l.frac := by
  obtain ⟨sign, point, hsign, hpoint, rfl⟩ := h
  have hminus := l.body_head (c := '-') (by decide) (by decide) hpoint
  have hplus := l.body_head (c := '+') (by decide) (by decide) hpoint
  cases hneg : l.negative with
  | true =>
    obtain rfl : sign = ['-'] := by simpa [hneg] using hsign
    exact ⟨by simp, point, hpoint, by simp⟩
  | false =>
    rcases (by simpa [hneg] using hsign : sign = [] ∨ sign = ['+']) with rfl | rfl
    · refine ⟨iff_of_false hminus (by simp), point, hpoint, ?_⟩
      exact if_neg (not_or.2 ⟨hminus, hplus⟩)
    · exact ⟨by simp, point, hpoint, by simp⟩

theorem Literal.splitOnce_body {point : List Char} (hpoint : point = ['.'] ∨ point = [] ∧ l.frac = []) :
    (splitOnce '.' (l.int ++ point ++ l.frac)).getD (l.int ++ point ++ l.frac, []) = (l.int, l.frac) := by
  have hdot : '.' ∉ l.int := fun h => by
    have hd := l.digits '.' (List.mem_append_left _ h)
    cases hd
  rcases hpoint with rfl | ⟨rfl, hfrac⟩
  · rw [List.append_assoc, List.singleton_append, splitOnce_append hdot]
    rfl
  · rw [hfrac, List.append_nil, List.append_nil, splitOnce_eq_none hdot]
    rfl

theorem parseWhole_eq (l : Literal) :
    parseWhole l.int =
      if Nat.ofDigitChars 10 l.int 0 < 2 ^ 63 then .ok (Nat.ofDigitChars 10 l.int 0 : Int) else .error .overflow := by
  unfold parseWhole
  by_cases hint : l.int = []
  · rw [if_pos hint, hint, Nat.ofDigitChars_nil]
    rfl
  · rw [if_neg hint, parseSigned_digits hint fun c hc => l.digits c (List.mem_append_left _ hc)]
    split
    · rfl
    · rfl

/-- **A literal is parsed as what it is, or refused for what does not fit.** -/
theorem parse_written (h : l.Written (trim s.toList)) :
    parse P s = if P.val < l.precision then .error (.precisionLoss P.val)
      else if 2 ^ 63 ≤ l.minor P.val then .error .overflow
      else checked (if l.negative then -(l.minor P.val : Int) else l.minor P.val) := by
  obtain ⟨hsign, point, hpoint, hbody⟩ := h.strip
  have hne : l.int ++ point ++ l.frac ≠ [] := fun he => l.nonempty <| by
    simp only [List.append_eq_nil_iff] at he ⊢
    exact ⟨he.1.1, he.2⟩
  have hparts : ¬ (l.int = [] ∧ l.frac = []) := fun he => l.nonempty (by rw [he.1, he.2, List.append_nil])
  have hint : l.int.all Char.isDigit = true := List.all_eq_true.2 fun c hc => l.digits c (List.mem_append_left _ hc)
  have hfrac : l.frac.all Char.isDigit = true := List.all_eq_true.2 fun c hc => l.digits c (List.mem_append_right _ hc)
  have hscaled : Nat.ofDigitChars 10 (l.scaled P.val) 0 < 10 ^ P.val := by
    have hlt := ofDigitChars_lt (s := l.scaled P.val) fun c hc => l.isDigit_scaled hc
    rwa [l.length_scaled] at hlt
  have hpow := P.pow_le
  have hunit : 1 ≤ 10 ^ P.val := Nat.one_le_pow _ _ (by decide)
  unfold parse
  simp only [hbody, l.splitOnce_body hpoint, hne, hparts, hint, hfrac, if_false, not_true_eq_false, or_self]
  rw [show (l.frac.rdropWhile fun c => decide (c = '0')).length = l.precision from rfl]
  by_cases hprec : P.val < l.precision
  · rw [if_pos hprec, if_pos hprec]
  rw [if_neg hprec, if_neg hprec, parseWhole_eq, fracMinor_eq l (by omega)]
  have hminor : (l.minor P.val : Int) = Nat.ofDigitChars 10 l.int 0 * P.units + Nat.ofDigitChars 10 (l.scaled P.val) 0 := by
    rw [P.units_eq, Literal.minor]
    push_cast
    rfl
  have hle : Nat.ofDigitChars 10 l.int 0 ≤ Nat.ofDigitChars 10 l.int 0 * 10 ^ P.val := Nat.le_mul_of_pos_right _ (by omega)
  have hsum : l.minor P.val = Nat.ofDigitChars 10 l.int 0 * 10 ^ P.val + Nat.ofDigitChars 10 (l.scaled P.val) 0 := rfl
  have hproduct : (Nat.ofDigitChars 10 l.int 0 * P.units : Int) = (Nat.ofDigitChars 10 l.int 0 * 10 ^ P.val : Nat) := by
    rw [P.units_eq]
    push_cast
    rfl
  by_cases hover : 2 ^ 63 ≤ l.minor P.val
  · rw [if_pos hover]
    -- whichever step comes first, something does not fit
    by_cases hwhole : Nat.ofDigitChars 10 l.int 0 < 2 ^ 63
    · rw [if_pos hwhole]
      simp only [bind, Except.bind, hproduct]
      by_cases hfits : FitsI64 (Nat.ofDigitChars 10 l.int 0 * 10 ^ P.val : Nat)
      · simp only [checkedI64, if_pos hfits]
        rw [if_neg (by unfold FitsI64 i64Min i64Max; omega)]
      · simp only [checkedI64, if_neg hfits]
    · rw [if_neg hwhole]
      rfl
  · rw [if_neg hover, if_pos (by omega)]
    simp only [bind, Except.bind, hproduct, checkedI64]
    rw [if_pos (by unfold FitsI64 i64Min i64Max; omega)]
    simp only
    rw [if_pos (by unfold FitsI64 i64Min i64Max; omega)]
    simp only [hsign, hminor, hproduct]
    cases l.negative with
    | true => rfl
    | false => rfl

theorem eq_sign_append (s : List Char) :
    ∃ sign, (if decide (s.head? = some '-') then sign = ['-'] else sign = [] ∨ sign = ['+']) ∧
      s = sign ++ if s.head? = some '-' ∨ s.head? = some '+' then s.tail else s := by
  by_cases hminus : s.head? = some '-'
  · refine ⟨['-'], by simp [hminus], ?_⟩
    rw [if_pos (.inl hminus)]
    exact (List.cons_head?_tail hminus).symm
  · by_cases hplus : s.head? = some '+'
    · refine ⟨['+'], by simp [hminus], ?_⟩
      rw [if_pos (.inr hplus)]
      exact (List.cons_head?_tail hplus).symm
    · refine ⟨[], by simp [hminus], ?_⟩
      rw [if_neg (not_or.2 ⟨hminus, hplus⟩), List.nil_append]

theorem written_of_parse {a : Amount P} (h : parse P s = .ok a) : ∃ l : Literal, l.Written (trim s.toList) := by
  unfold parse at h
  simp only at h
  obtain ⟨sign, hsign, htext⟩ := eq_sign_append (trim s.toList)
  revert htext h
  generalize (if (trim s.toList).head? = some '-' ∨ (trim s.toList).head? = some '+' then (trim s.toList).tail
    else trim s.toList) = digits
  intro h htext
  by_cases hne : digits = []
  · rw [if_pos hne] at h
    cases h
  rw [if_neg hne] at h
  have hparts : ∃ point, (point = ['.'] ∨ point = [] ∧ ((splitOnce '.' digits).getD (digits, [])).2 = []) ∧
      digits = ((splitOnce '.' digits).getD (digits, [])).1 ++ point ++ ((splitOnce '.' digits).getD (digits, [])).2 := by
    cases hsplit : splitOnce '.' digits with
    | none => exact ⟨[], .inr ⟨rfl, rfl⟩, by simp⟩
    | some parts => exact ⟨['.'], .inl rfl, by simpa using eq_of_splitOnce hsplit⟩
  revert hparts h
  generalize (splitOnce '.' digits).getD (digits, []) = parts
  intro h hparts
  obtain ⟨point, hpoint, hdigits⟩ := hparts
  by_cases hempty : parts.1 = [] ∧ parts.2 = []
  · rw [if_pos hempty] at h
    cases h
  rw [if_neg hempty] at h
  by_cases hall : ¬ parts.1.all Char.isDigit ∨ ¬ parts.2.all Char.isDigit
  · rw [if_pos hall] at h
    cases h
  rw [not_or, not_not, not_not, List.all_eq_true, List.all_eq_true] at hall
  refine ⟨⟨decide ((trim s.toList).head? = some '-'), parts.1, parts.2,
    fun c hc => (List.mem_append.1 hc).elim (hall.1 c) (hall.2 c), fun he => hempty (List.append_eq_nil_iff.1 he)⟩,
    sign, point, hsign, hpoint, ?_⟩
  rw [← hdigits, ← htext]

theorem Literal.minor_le {l : Literal} (h : l.precision ≤ P.val) :
    l.magnitude * 10 ^ P.val ≤ i64Max ↔ ¬ 2 ^ 63 ≤ l.minor P.val := by
  rw [← l.minor_eq h, not_le, ← i64_bound]
  exact_mod_cast Iff.rfl

/-- **What `parse` accepts, and what it returns.** A text is accepted exactly when, trimmed,
it is a literal that the scale and the `i64` can hold; what it returns is the value of the
literal, with no digit dropped. -/
theorem parse_iff_literal (P : Scale) (s : String) :
    ((∃ a : Amount P, parse P s = .ok a) ↔
      ∃ l : Literal, l.Written (trim s.toList) ∧ l.precision ≤ P.val ∧ l.magnitude * 10 ^ P.val ≤ i64Max) ∧
    ∀ a : Amount P, parse P s = .ok a → ∀ l : Literal, l.Written (trim s.toList) →
      (a.minor : ℚ) = l.value * 10 ^ P.val := by
  have haccept : ∀ {a : Amount P} {l : Literal}, parse P s = .ok a → l.Written (trim s.toList) →
      l.precision ≤ P.val ∧ ¬ 2 ^ 63 ≤ l.minor P.val ∧
        a.minor = if l.negative then -(l.minor P.val : Int) else l.minor P.val := fun {a l} h hl => by
    rw [parse_written hl] at h
    by_cases hprec : P.val < l.precision
    · rw [if_pos hprec] at h
      cases h
    rw [if_neg hprec] at h
    by_cases hover : 2 ^ 63 ≤ l.minor P.val
    · rw [if_pos hover] at h
      cases h
    rw [if_neg hover] at h
    exact ⟨by omega, hover, checked_eq_ok.1 h⟩
  refine ⟨⟨fun ⟨a, h⟩ => ?_, fun ⟨l, hl, hprec, hmax⟩ => ?_⟩, fun a h l hl => ?_⟩
  · obtain ⟨l, hl⟩ := written_of_parse h
    obtain ⟨hprec, hover, -⟩ := haccept h hl
    exact ⟨l, hl, hprec, (Literal.minor_le hprec).2 hover⟩
  · have hover := (Literal.minor_le hprec).1 hmax
    have hfits : FitsI64 (if l.negative then -(l.minor P.val : Int) else l.minor P.val) := by
      unfold FitsI64 i64Min i64Max
      cases l.negative <;> simp <;> omega
    exact ⟨⟨_, hfits⟩, by rw [parse_written hl, if_neg (by omega), if_neg hover]; exact checked_eq_ok.2 rfl⟩
  · obtain ⟨hprec, -, hminor⟩ := haccept h hl
    rw [hminor, Literal.value]
    cases hneg : l.negative with
    | true =>
      simp only [if_true]
      push_cast
      rw [l.minor_eq hprec, neg_mul]
    | false =>
      simp only [Bool.false_eq_true, if_false]
      exact_mod_cast l.minor_eq hprec

/-! ## The text of an amount is read back -/

/-- There is no white space around a literal. -/
theorem Literal.Written.trim {s : List Char} (h : l.Written s) : Core.trim s = s := by
  obtain ⟨sign, point, hsign, hpoint, rfl⟩ := h
  refine trim_eq fun c hc => ?_
  have hdigit : ∀ c ∈ l.int ++ l.frac, isWhitespace c = false := fun c hc => isWhitespace_of_isDigit (l.digits c hc)
  simp only [List.mem_append] at hc hdigit
  rcases hc with hc | (hc | hc) | hc
  · have hmem : c = '-' ∨ c = '+' := by
      cases hneg : l.negative with
      | true => simp_all
      | false =>
        rcases (by simpa [hneg] using hsign : sign = [] ∨ sign = ['+']) with rfl | rfl
        · cases hc
        · exact .inr (List.mem_singleton.1 hc)
    rcases hmem with rfl | rfl
    · rfl
    · rfl
  · exact hdigit c (.inl hc)
  · rcases hpoint with rfl | ⟨rfl, -⟩
    · rw [List.mem_singleton.1 hc]
      rfl
    · cases hc
  · exact hdigit c (.inr hc)

/-- The digits after the point of an amount. -/
def fracDigits (P : Scale) (m : Nat) : List Char := (Nat.toDigits 10 (m % 10 ^ P.val)).leftpad P.val '0'

theorem isDigit_fracDigits {m : Nat} {c : Char} (h : c ∈ fracDigits P m) : c.isDigit = true := by
  rcases List.mem_append.1 h with h | h
  · rw [List.eq_of_mem_replicate h]
    rfl
  · exact isDigit_of_mem_decimal h

theorem length_fracDigits (m : Nat) (hP : P.val ≠ 0) : (fracDigits P m).length = P.val := by
  have hlt : m % 10 ^ P.val < 10 ^ P.val := Nat.mod_lt _ (by positivity)
  have hle : (Nat.toDigits 10 (m % 10 ^ P.val)).length ≤ P.val :=
    (Nat.length_toDigits_le_iff (by decide) (Nat.pos_of_ne_zero hP)).2 hlt
  rw [fracDigits, List.length_leftpad]
  omega

theorem fracDigits_value (m : Nat) : Nat.ofDigitChars 10 (fracDigits P m) 0 = m % 10 ^ P.val := by
  rw [fracDigits, List.leftpad, ofDigitChars_append_zero, ofDigitChars_replicate_zero, Nat.zero_mul, Nat.zero_add,
    Nat.ofDigitChars_ten_toDigits]

/-- The literal that an amount is shown as. -/
def literal (a : Amount P) : Literal where
  negative := a.minor < 0
  int := Nat.toDigits 10 (a.minor.natAbs / 10 ^ P.val)
  frac := if P.val = 0 then [] else fracDigits P a.minor.natAbs
  digits c hc := by
    rcases List.mem_append.1 hc with hc | hc
    · exact isDigit_of_mem_decimal hc
    · by_cases hP : P.val = 0
      · rw [if_pos hP] at hc
        cases hc
      · rw [if_neg hP] at hc
        exact isDigit_fracDigits hc
  nonempty h := Nat.toDigits_ne_nil (List.append_eq_nil_iff.1 h).1

theorem literal_written (a : Amount P) : a.literal.Written a.display.toList := by
  have hunits : P.units.natAbs = 10 ^ P.val := by
    rw [P.units_eq]
    exact_mod_cast rfl
  refine ⟨if a.minor < 0 then ['-'] else [], if P.val = 0 then [] else ['.'], ?_, ?_, ?_⟩
  · by_cases hneg : a.minor < 0
    · simp [literal, hneg]
    · simp [literal, hneg]
  · by_cases hP : P.val = 0
    · simp [literal, hP]
    · simp [hP]
  · rw [display, String.toList_ofList, hunits]
    by_cases hP : P.val = 0
    · simp [literal, hP, displayInt]
    · simp [literal, hP, fracDigits]

theorem literal_precision (a : Amount P) : a.literal.precision ≤ P.val := by
  have hlen : a.literal.precision ≤ a.literal.frac.length := (List.rdropWhile_prefix _ _).length_le
  by_cases hP : P.val = 0
  · simpa [literal, hP] using hlen
  · have hfrac : a.literal.frac = fracDigits P a.minor.natAbs := if_neg hP
    rwa [hfrac, length_fracDigits _ hP] at hlen

theorem literal_minor (a : Amount P) : a.literal.minor P.val = a.minor.natAbs := by
  have hint : Nat.ofDigitChars 10 a.literal.int 0 = a.minor.natAbs / 10 ^ P.val := Nat.ofDigitChars_ten_toDigits
  have hscaled : Nat.ofDigitChars 10 (a.literal.scaled P.val) 0 = a.minor.natAbs % 10 ^ P.val := by
    by_cases hP : P.val = 0
    · simp [Literal.scaled, hP, Nat.mod_one]
    · have hfrac : a.literal.frac = fracDigits P a.minor.natAbs := if_neg hP
      have hlen := length_fracDigits a.minor.natAbs hP
      rw [Literal.scaled, hfrac, hlen, Nat.sub_self, List.replicate_zero, List.append_nil,
        List.take_of_length_le (by omega), fracDigits_value]
  rw [Literal.minor, hint, hscaled, Nat.mul_comm]
  exact Nat.div_add_mod _ _

/-- What the text of an amount is read back as. -/
theorem parse_display (a : Amount P) :
    parse P a.display = if a.minor = i64Min then .error .overflow else .ok a := by
  have hwritten := a.literal_written
  have hfits := a.fits
  unfold FitsI64 i64Min i64Max at hfits
  have hsign : (if a.literal.negative then -(a.minor.natAbs : Int) else a.minor.natAbs) = a.minor := by
    by_cases hneg : a.minor < 0
    · have htrue : a.literal.negative = true := decide_eq_true hneg
      rw [htrue, if_pos rfl]
      omega
    · have hfalse : a.literal.negative = false := decide_eq_false hneg
      rw [hfalse, if_neg (by decide)]
      omega
  rw [parse_written (hwritten.trim.symm ▸ hwritten), if_neg (by have := a.literal_precision; omega), literal_minor, hsign]
  by_cases hmin : a.minor = i64Min
  · rw [if_pos hmin, if_pos (by rw [hmin]; decide)]
  · rw [if_neg hmin, if_neg (by unfold i64Min at hmin; omega)]
    exact checked_eq_ok.2 rfl

/-- **The text of an amount is read back unless it is the smallest one.** -/
theorem parse_display_iff (a : Amount P) : parse P a.display = .ok a ↔ a.minor ≠ i64Min := by
  rw [parse_display]
  by_cases h : a.minor = i64Min
  · simp [h]
  · simp [h]

/-- `Amount::<2>::MIN` -/
def leastCents : Amount cents := ⟨i64Min, by decide⟩

theorem leastCents_not_read : leastCents.display = "-92233720368547758.08" ∧
    parse cents "-92233720368547758.08" = .error .overflow ∧
    ¬ ∀ (P : Scale) (a : Amount P), parse P a.display = .ok a := by
  have hdisplay : leastCents.display = "-92233720368547758.08" := by decide +kernel
  have hparse := parse_display leastCents
  have hleast : leastCents.minor = i64Min := rfl
  rw [if_pos hleast, hdisplay] at hparse
  refine ⟨hdisplay, hparse, fun h => ?_⟩
  have hok := h cents leastCents
  rw [hdisplay, hparse] at hok
  cases hok

end Amount

end DoubleEntry.L1
