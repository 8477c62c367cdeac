import Mathlib

/-!
# The canonical encoding and the tagged hash

`CanonicalWriter` only ever appends, so a writer is modelled by the bytes it
appends, and writing two values by `++` (`src/canonical.rs:31-160`). BLAKE3 is
not part of the repository: `Blake3` gives the type of digests, the bytes of a
digest and the hash function, and nothing is assumed of them here. What the
repository does own is the domain separation, `tagged` (`src/hash.rs:182-189`).

`Preimage` is an instance without collisions, for runs on concrete inputs: a digest is the
payload it was taken of. Texts are encoded as the bytes of their UTF-8, as in the source.

Integers are little-endian and of a fixed width, texts and byte strings have their length in
front, sequences their count, and an option a byte that says whether there is a value. What
of this can be told from the bytes is `Encoding`.
-/
namespace DoubleEntry.L1

abbrev Bytes := List UInt8

/-- `to_le_bytes` of a `w`-byte unsigned integer. -/
def leBytes : Nat → Nat → Bytes
  | 0, _ => []
  | w + 1, n => UInt8.ofNat (n % 256) :: leBytes w (n / 256)

/-- `to_le_bytes` of a `w`-byte two's complement integer. -/
def leBytesInt (w : Nat) (n : Int) : Bytes := leBytes w (n % (256 ^ w : Nat)).toNat

/-! ## Writers
mirrors src/canonical.rs:49-147 -/

def writeU8 (v : Nat) : Bytes := leBytes 1 v
def writeU16 (v : Nat) : Bytes := leBytes 2 v
def writeU32 (v : Nat) : Bytes := leBytes 4 v
def writeU64 (v : Nat) : Bytes := leBytes 8 v
def writeU128 (v : Nat) : Bytes := leBytes 16 v
def writeI32 (v : Int) : Bytes := leBytesInt 4 v
def writeI64 (v : Int) : Bytes := leBytesInt 8 v

def writeBool (v : Bool) : Bytes := writeU8 v.toNat

/-- Length first, in eight bytes. -/
def writeBytes (v : Bytes) : Bytes := writeU64 v.length ++ v

def utf8 (s : String) : Bytes := s.toList.flatMap String.utf8EncodeChar

def writeStr (s : String) : Bytes := writeBytes (utf8 s)

def writeOption {α : Type} (f : α → Bytes) : Option α → Bytes
  | none => writeU8 0
  | some a => writeU8 1 ++ f a

/-- Count first, then the elements in the order given. -/
def writeSeq {α : Type} (f : α → Bytes) (l : List α) : Bytes := writeU64 l.length ++ l.flatMap f

/-- The trait `Canonical`. mirrors src/canonical.rs:163-175 -/
class Canonical (α : Type) where
  encode : α → Bytes

/-! ## Hashes -/

/-- The digests of BLAKE3: their bytes and the hash function. -/
class Blake3 (H : Type) where
  asBytes : H → Bytes
  hash : Bytes → H

/-- mirrors src/hash.rs:182-189 -/
def tagged {H : Type} [Blake3 H] (tag payload : Bytes) : H :=
  Blake3.hash (writeU64 tag.length ++ tag ++ payload)

namespace Tag

/-! mirrors src/hash.rs:160-172 -/

def entryV1 : Bytes := utf8 "doubleentry/entry/v1"
def accountV1 : Bytes := utf8 "doubleentry/account/v1"
def sealV1 : Bytes := utf8 "doubleentry/seal/v1"
def trialBalanceV1 : Bytes := utf8 "doubleentry/trialbalance/v1"
def accountBindingV1 : Bytes := utf8 "doubleentry/accountbinding/v1"

end Tag

/-- A stand-in for BLAKE3 without collisions: the digest is the preimage. -/
structure Preimage where
  bytes : Bytes
  deriving DecidableEq, Repr

instance : Blake3 Preimage := ⟨fun h => writeBytes h.bytes, Preimage.mk⟩

end DoubleEntry.L1
