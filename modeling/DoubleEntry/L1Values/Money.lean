import DoubleEntry.L1Values.Canonical

/-!
# Amounts and currencies

`Amount P` is an `i64` count of minor units at a scale `P` of at most 18 (the
precision guard makes a larger scale a compile error, so it is the type of
scales that excludes it here). Every operation that can leave the `i64` range
reports `MoneyError.overflow`.

`checked` is the one overflow check: every operation computes in the integers and asks for
`FitsI64`. A currency carries the proof that its code is three letters, so that it is
written as three bytes.

**Results.**
* `checked_eq_ok`: an operation returns the exact result, or overflows.
* `Amount.le_iff`: amounts are ordered by their minor units.

Parsing and display are `AmountText`, splitting an amount is `Allocation`.
-/
namespace DoubleEntry.L1

/-- `P <= Amount::MAX_PRECISION`. mirrors src/money.rs:178,192-195 -/
abbrev Scale := Fin 19

def cents : Scale := ⟨2, by decide⟩

/-- mirrors src/money.rs:19-37 -/
inductive MoneyError where
  | overflow
  | zeroWeight
  | precisionLoss (scale : Nat)
  | invalidCurrency
  | invalidLiteral
  deriving DecidableEq, Repr

def i64Min : Int := -2 ^ 63
def i64Max : Int := 2 ^ 63 - 1

def FitsI64 (n : Int) : Prop := i64Min ≤ n ∧ n ≤ i64Max

instance (n : Int) : Decidable (FitsI64 n) := by unfold FitsI64; infer_instance

/-- mirrors src/money.rs:153 -/
structure Amount (P : Scale) where
  minor : Int
  fits : FitsI64 minor

namespace Amount

variable {P : Scale}

@[ext] theorem ext {a b : Amount P} (h : a.minor = b.minor) : a = b := by
  cases a; cases b; congr

instance : LinearOrder (Amount P) := LinearOrder.lift' minor fun _ _ => ext

theorem le_iff {a b : Amount P} : a ≤ b ↔ a.minor ≤ b.minor := Iff.rfl

def zero : Amount P := ⟨0, by decide⟩

/-- The overflow check behind every `checked_` operation. -/
def checked (n : Int) : Except MoneyError (Amount P) :=
  if h : FitsI64 n then .ok ⟨n, h⟩ else .error .overflow

/-- mirrors src/money.rs:231-233 -/
def isZero (a : Amount P) : Bool := a.minor = 0

/-- mirrors src/money.rs:237-239 -/
def isNegative (a : Amount P) : Bool := a.minor < 0

/-- mirrors src/money.rs:243-245 -/
def isPositive (a : Amount P) : Bool := 0 < a.minor

/-- mirrors src/money.rs:248-253 -/
def checkedAdd (a b : Amount P) : Except MoneyError (Amount P) := checked (a.minor + b.minor)

/-- mirrors src/money.rs:256-261 -/
def checkedSub (a b : Amount P) : Except MoneyError (Amount P) := checked (a.minor - b.minor)

/-- mirrors src/money.rs:264-266 -/
def checkedNeg (a : Amount P) : Except MoneyError (Amount P) := checked (-a.minor)

theorem checked_eq_ok {n : Int} {a : Amount P} : checked n = .ok a ↔ a.minor = n := by
  unfold checked
  split
  · simp only [Except.ok.injEq]
    exact ⟨fun h => h ▸ rfl, fun h => Amount.ext h.symm⟩
  · rename_i h
    simp only [reduceCtorEq, false_iff]
    exact fun e => h (e ▸ a.fits)

theorem checkedAdd_eq_ok {a b c : Amount P} :
    a.checkedAdd b = .ok c ↔ c.minor = a.minor + b.minor := checked_eq_ok

theorem checkedSub_eq_ok {a b c : Amount P} :
    a.checkedSub b = .ok c ↔ c.minor = a.minor - b.minor := checked_eq_ok

end Amount

/-! ## Currencies -/

def isAsciiUppercase (b : UInt8) : Bool := 65 ≤ b.toNat && b.toNat ≤ 90

/-- Three ASCII uppercase letters. mirrors src/money.rs:46 -/
structure Currency where
  a : UInt8
  b : UInt8
  c : UInt8
  upper : (isAsciiUppercase a && isAsciiUppercase b && isAsciiUppercase c) = true

namespace Currency

/-- mirrors src/money.rs:78-87 -/
def new (code : String) : Except MoneyError Currency :=
  match utf8 code with
  | [a, b, c] =>
    if h : (isAsciiUppercase a && isAsciiUppercase b && isAsciiUppercase c) = true then .ok ⟨a, b, c, h⟩
    else .error .invalidCurrency
  | _ => .error .invalidCurrency

def asBytes (c : Currency) : Bytes := [c.a, c.b, c.c]

def toLexBytes (c : Currency) : ℕ ×ₗ ℕ ×ₗ ℕ := toLex (c.a.toNat, toLex (c.b.toNat, c.c.toNat))

theorem toLexBytes_injective : Function.Injective toLexBytes := by
  rintro ⟨a, b, c, h⟩ ⟨a', b', c', h'⟩ e
  simp only [toLexBytes, EmbeddingLike.apply_eq_iff_eq, Prod.mk.injEq, UInt8.toNat_inj] at e
  obtain ⟨rfl, rfl, rfl⟩ := e
  rfl

instance : LinearOrder Currency := LinearOrder.lift' toLexBytes toLexBytes_injective

def eur : Currency := ⟨69, 85, 82, by decide⟩
def usd : Currency := ⟨85, 83, 68, by decide⟩

example : new "EUR" = .ok eur := by decide

end Currency

end DoubleEntry.L1
