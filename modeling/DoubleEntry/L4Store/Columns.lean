import DoubleEntry.Core.Select
import DoubleEntry.L3Ledger.ContentHash
import DoubleEntry.L4Store.ColdTier

/-!
# The columns of an entry

SQLite holds an entry in three tables: a row of `entries`, a row of `postings` for
each posting and a row of `posting_dimensions` for each axis of a posting.
Identifiers and hashes are blobs, enumerations, dates and currencies are text. What
is bound is what is read back, value by value, and so a row and its postings build
the entry again (`buildStoredEntry_columns`), if a reversal names both its original
and the original's date: the two columns are read together.

A digest is as many bytes as the columns ask for.

**Assumptions.** What an entry has by its types, and for a reversal both columns or neither. The
digest is any type whose bytes are read back (`HashBytes`).

**Results.**
* `new_currencyCode`, `parseDate_sqlText`: single columns.
* `buildStoredEntry_columns`: a row with its postings is the entry it was bound from.

Numbers are in the range of their columns by the types they come from; a handle has 32 bits
and its column 64.
-/
namespace DoubleEntry.L4

open DoubleEntry.Core DoubleEntry.L1 DoubleEntry.L2 DoubleEntry.L3

/-! ## Identifiers -/

/-- The number of bytes with the most significant one first. -/
def beNat (b : Bytes) : Nat := b.foldl (fun n d => n * 256 + d.toNat) 0

theorem beNat_concat (b : Bytes) (d : UInt8) : beNat (b ++ [d]) = beNat b * 256 + d.toNat := by simp [beNat]

theorem beNat_lt (b : Bytes) : beNat b < 256 ^ b.length := by
  induction b using List.reverseRecOn with
  | nil => simp [beNat]
  | append_singleton b d ih =>
    have hd := d.toNat_lt
    rw [beNat_concat, List.length_append, List.length_singleton, Nat.pow_succ]
    omega

theorem beNat_leBytes (w n : Nat) : beNat (leBytes w n).reverse = n % 256 ^ w := by
  induction w generalizing n with
  | zero => simp [leBytes, beNat, Nat.mod_one]
  | succ w ih =>
    have hd : (UInt8.ofNat (n % 256)).toNat = n % 256 := by
      rw [UInt8.toNat_ofNat']
      omega
    rw [leBytes, List.reverse_cons, beNat_concat, ih, hd, Nat.pow_succ', Nat.mod_mul]
    omega

/-- mirrors src/storage/sqlite.rs:713-715 -/
def uuidBytes (id : EntryId) : Bytes := id.uuid.asBytes

theorem length_uuidBytes (id : EntryId) : (uuidBytes id).length = 16 := by simp [uuidBytes, Uuid.asBytes, length_leBytes]

/-- What `SqliteError::Malformed` says. -/
inductive Malformed
  | identifier
  | hash
  | direction (other : String)
  | layer (other : String)
  | currency (code : String)
  | field (e : EntryFieldError)
  | dimension (e : DimensionError)
  deriving DecidableEq

/-- What reading rows fails with; a column that does not decode is a database error. -/
inductive RowError (H : Type)
  | malformed (m : Malformed)
  | integrity (e : IntegrityError H)
  | database
  deriving DecidableEq

section
variable {H : Type}

/-- mirrors src/storage/sqlite.rs:721-726 -/
def uuidFromBytes (b : Bytes) : Except (RowError H) EntryId :=
  if h : b.length = 16 then .ok ⟨⟨beNat b, by have := beNat_lt b; rw [h] at this; exact this⟩⟩
  else .error (.malformed .identifier)

theorem uuidFromBytes_uuidBytes (id : EntryId) : uuidFromBytes (H := H) (uuidBytes id) = .ok id := by
  have hvalue : beNat (uuidBytes id) = id.uuid.value := by
    rw [uuidBytes, Uuid.asBytes, beNat_leBytes]
    exact Nat.mod_eq_of_lt id.uuid.fits
  unfold uuidFromBytes
  rw [dif_pos (length_uuidBytes id)]
  simp only [hvalue]

theorem uuidBytes_injective : Function.Injective uuidBytes :=
  injective_of_read (r := fun b => (uuidFromBytes (H := Unit) b).toOption) fun id => by
    rw [uuidFromBytes_uuidBytes]
    rfl

theorem uuidBytes_inj {a b : EntryId} : uuidBytes a = uuidBytes b ↔ a = b := uuidBytes_injective.eq_iff

/-- mirrors src/storage/sqlite.rs:728-733 -/
def hashFromBytes [HashBytes H] (b : Bytes) : Except (RowError H) H :=
  match HashBytes.fromBytes b with
  | some h => .ok h
  | none => .error (.malformed .hash)

theorem hashFromBytes_asBytes [HashBytes H] (h : H) : hashFromBytes (Blake3.asBytes h) = .ok h := by
  rw [hashFromBytes, HashBytes.fromBytes_asBytes]

end

/-! ## Enumerations -/

/-- mirrors src/storage/sqlite.rs:690-695 -/
def directionStr : Direction → String
  | .debit => "D"
  | .credit => "C"

/-- mirrors src/storage/sqlite.rs:697-702 -/
def layerStr : Layer → String
  | .settled => "settled"
  | .pending => "pending"

section
variable {H : Type}

/-- mirrors src/storage/sqlite.rs:755-759 -/
def readDirection : String → Except (RowError H) Direction
  | "D" => .ok .debit
  | "C" => .ok .credit
  | other => .error (.malformed (.direction other))

/-- mirrors src/storage/sqlite.rs:760-764 -/
def readLayer : String → Except (RowError H) Layer
  | "settled" => .ok .settled
  | "pending" => .ok .pending
  | other => .error (.malformed (.layer other))

@[simp] theorem readDirection_directionStr (d : Direction) : readDirection (H := H) (directionStr d) = .ok d := by
  cases d <;> rfl

@[simp] theorem readLayer_layerStr (l : Layer) : readLayer (H := H) (layerStr l) = .ok l := by cases l <;> rfl

end

theorem directionStr_injective : Function.Injective directionStr :=
  injective_of_read (r := fun s => (readDirection (H := Unit) s).toOption) fun d => by
    rw [readDirection_directionStr]
    rfl

theorem layerStr_injective : Function.Injective layerStr :=
  injective_of_read (r := fun s => (readLayer (H := Unit) s).toOption) fun l => by
    rw [readLayer_layerStr]
    rfl

/-! ## Currencies -/

/-- mirrors src/money.rs:93-96 -/
def currencyCode (c : Currency) : String := String.ofList (c.asBytes.map fun b => Char.ofNat b.toNat)

/-- The character of a byte of a currency. -/
theorem upper_char {b : UInt8} (h : isAsciiUppercase b = true) :
    isWhitespace (Char.ofNat b.toNat) = false ∧ String.utf8EncodeChar (Char.ofNat b.toNat) = [b] := by
  obtain ⟨n, rfl⟩ : ∃ n : Fin 26, b = UInt8.ofNat (65 + n.val) := by
    have hb : 65 ≤ b.toNat ∧ b.toNat ≤ 90 := by simpa [isAsciiUppercase] using h
    refine ⟨⟨b.toNat - 65, by omega⟩, UInt8.toNat_inj.1 ?_⟩
    rw [UInt8.toNat_ofNat']
    simp only
    omega
  revert n
  decide

theorem utf8_currencyCode (c : Currency) : utf8 (currencyCode c) = c.asBytes := by
  have hupper := c.upper
  simp only [Bool.and_eq_true] at hupper
  obtain ⟨⟨ha, hb⟩, hc⟩ := hupper
  simp [utf8, currencyCode, Currency.asBytes, (upper_char ha).2, (upper_char hb).2, (upper_char hc).2]

/-- **A code is read back.** -/
theorem new_currencyCode (c : Currency) : Currency.new (currencyCode c) = .ok c := by
  rw [Currency.new, utf8_currencyCode]
  simp only [Currency.asBytes, c.upper, ↓reduceDIte]

section
variable {H : Type}

/-- mirrors src/storage/sqlite.rs:770-771 -/
def readCurrency (text : String) : Except (RowError H) Currency :=
  (Currency.new (String.ofList (trim text.toList))).mapError fun _ => .malformed (.currency text)

@[simp] theorem readCurrency_code (c : Currency) : readCurrency (H := H) (currencyCode c) = .ok c := by
  have htrim : String.ofList (trim (currencyCode c).toList) = currencyCode c := by
    have hupper := c.upper
    simp only [Bool.and_eq_true] at hupper
    obtain ⟨⟨ha, hb⟩, hc⟩ := hupper
    rw [trim_eq, String.ofList_toList]
    intro x hx
    simp only [currencyCode, Currency.asBytes, String.toList_ofList, List.map_cons, List.map_nil, List.mem_cons,
      List.not_mem_nil, or_false] at hx
    rcases hx with rfl | rfl | rfl
    · exact (upper_char ha).1
    · exact (upper_char hb).1
    · exact (upper_char hc).1
  rw [readCurrency, htrim, new_currencyCode]
  rfl

end

theorem currencyCode_injective : Function.Injective currencyCode :=
  injective_of_read (r := fun s => (readCurrency (H := Unit) s).toOption) fun c => by
    rw [readCurrency_code]
    rfl

/-! ## Dates -/

/-- Exactly `w` decimal digits, and what follows them. -/
def takeDigits (w : Nat) (s : List Char) : Option (Nat × List Char) :=
  if (s.take w).length = w ∧ (s.take w).all Char.isDigit then some (Nat.ofDigitChars 10 (s.take w) 0, s.drop w)
  else none

def takeChar (c : Char) : List Char → Option (List Char)
  | d :: s => if d = c then some s else none
  | [] => none

/-- `Date::from_calendar_date` -/
def dateOf (year : Int) (month day : Nat) : Option Date :=
  if h : ValidDate year month day then some ⟨year, month, day, h⟩ else none

/-- Whether there is a minus, and what follows the sign. -/
def takeSign : List Char → Bool × List Char
  | c :: s => if c = '-' then (true, s) else if c = '+' then (false, s) else (false, c :: s)
  | [] => (false, [])

/-- The digits of a date behind its sign. -/
def parseParts (negative : Bool) (s : List Char) : Option Date := do
  let (year, s) ← takeDigits 4 s
  let s ← takeChar '-' s
  let (month, s) ← takeDigits 2 s
  let s ← takeChar '-' s
  let (day, s) ← takeDigits 2 s
  if s = [] then dateOf (if negative then -year else year) month day else none

/-- A date read as `[year]-[month]-[day]`, with a sign or without. -/
def parseDate (s : List Char) : Option Date := parseParts (takeSign s).1 (takeSign s).2

theorem isDigit_digitChar {n : Nat} (h : n < 10) : (Nat.digitChar n).isDigit = true := by
  interval_cases n <;> rfl

theorem isDigit_of_mem_paddedDigits {w n : Nat} {c : Char} (h : c ∈ paddedDigits w n) : c.isDigit = true := by
  induction w generalizing n with
  | zero => cases h
  | succ w ih =>
    rcases List.mem_append.1 h with h | h
    · exact ih h
    · rw [List.mem_singleton.1 h]
      exact isDigit_digitChar (Nat.mod_lt n (by omega))

theorem ofDigitChars_paddedDigits {w n : Nat} (h : n < 10 ^ w) : Nat.ofDigitChars 10 (paddedDigits w n) 0 = n := by
  induction w generalizing n with
  | zero =>
    rw [Nat.lt_one_iff.1 h]
    rfl
  | succ w ih =>
    have hdigit : (Nat.digitChar (n % 10)).toNat - '0'.toNat = n % 10 := by
      have := Nat.mod_lt n (show 0 < 10 by omega)
      interval_cases n % 10 <;> rfl
    rw [paddedDigits, Nat.ofDigitChars_append, ih (by omega)]
    simp only [Nat.ofDigitChars_cons, Nat.ofDigitChars_nil, hdigit]
    omega

@[simp] theorem takeDigits_paddedDigits {w n : Nat} {s : List Char} (h : n < 10 ^ w) :
    takeDigits w (paddedDigits w n ++ s) = some (n, s) := by
  have htake : (paddedDigits w n ++ s).take w = paddedDigits w n := List.take_left' (length_paddedDigits w n)
  have hdrop : (paddedDigits w n ++ s).drop w = s := List.drop_left' (length_paddedDigits w n)
  rw [takeDigits, htake, hdrop, if_pos ⟨length_paddedDigits w n, List.all_eq_true.2 fun _ => isDigit_of_mem_paddedDigits⟩,
    ofDigitChars_paddedDigits h]

@[simp] theorem takeChar_cons (c : Char) (s : List Char) : takeChar c (c :: s) = some s := by simp [takeChar]

theorem takeSign_paddedDigits {w n : Nat} (hw : 0 < w) (s : List Char) :
    takeSign (paddedDigits w n ++ s) = (false, paddedDigits w n ++ s) := by
  cases hp : paddedDigits w n with
  | nil =>
    have hlen := length_paddedDigits w n
    rw [hp] at hlen
    exact absurd hlen (by simp; omega)
  | cons c l =>
    have hc : c.isDigit = true := isDigit_of_mem_paddedDigits (hp ▸ List.mem_cons_self)
    have hminus : c ≠ '-' := fun e => by
      rw [e] at hc
      cases hc
    have hplus : c ≠ '+' := fun e => by
      rw [e] at hc
      cases hc
    simp [takeSign, hminus, hplus]

theorem dateOf_self (d : Date) : dateOf d.year d.month d.day = some d := dif_pos d.valid

/-- **A date is read back from its text.** -/
theorem parseDate_sqlText (d : Date) : parseDate (sqlText d) = some d := by
  obtain ⟨hlow, hhigh, -, hm, -, hd⟩ := d.valid
  have hday := hd.trans (daysInMonth_le d.year d.month)
  have hyear : d.year.natAbs < 10 ^ 4 := by omega
  have hmonth : d.month < 10 ^ 2 := by omega
  have hday : d.day < 10 ^ 2 := by omega
  have hlast := takeDigits_paddedDigits (s := []) hday
  rw [List.append_nil] at hlast
  have hparts : ∀ negative : Bool, (if negative then -(d.year.natAbs : Int) else d.year.natAbs) = d.year →
      parseParts negative (paddedDigits 4 d.year.natAbs ++ '-' :: (paddedDigits 2 d.month ++
        '-' :: paddedDigits 2 d.day)) = some d := fun negative hsign => by
    simp only [parseParts, takeDigits_paddedDigits hyear, takeDigits_paddedDigits hmonth, hlast, takeChar_cons,
      Option.bind_eq_bind, Option.bind_some, ↓reduceIte, hsign, dateOf_self]
  rw [parseDate, sqlText, List.append_assoc, List.append_assoc, List.cons_append]
  by_cases hneg : d.year < 0
  · rw [if_pos hneg]
    exact hparts true (by simp only [↓reduceIte]; omega)
  · rw [if_neg hneg, List.nil_append, takeSign_paddedDigits (by omega)]
    exact hparts false (by simp only [Bool.false_eq_true, ↓reduceIte]; omega)

/-! ## Rows -/

/-- A row of `entries`. mirrors schema/sqlite.sql:93-143 -/
structure EntryColumns where
  logIndex : Option Nat
  entryId : Bytes
  idempotencyKey : Bytes
  contentHash : Bytes
  bookingDate : List Char
  valueDate : List Char
  description : String
  kind : Option String
  provenanceActor : Option String
  provenanceSource : Option String
  provenanceCorrelation : Option String
  documentId : Option String
  documentContentHash : Option Bytes
  reverses : Option Bytes
  originalBookingDate : Option (List Char)
  treeRoot : Option Bytes
  deriving DecidableEq

/-- A row of `postings`. mirrors schema/sqlite.sql:166-183 -/
structure PostingColumns where
  entryId : Bytes
  postingIndex : Nat
  accountIndex : Nat
  direction : String
  amountMinor : Int
  amountFits : FitsI64 amountMinor
  currency : String
  layer : String
  deriving DecidableEq

/-- A row of `posting_dimensions`. mirrors schema/sqlite.sql:201-209 -/
structure DimensionColumns where
  entryId : Bytes
  postingIndex : Nat
  axis : String
  value : String
  deriving DecidableEq

section
variable {H : Type} [HashBytes H] {P : Scale}

/-- What `INSERT INTO entries` binds. mirrors src/storage/sqlite.rs:476-510 -/
def entryColumns (e : Entry H .balanced P) (contentHash : H) (placed : Option (Nat × H)) : EntryColumns where
  logIndex := placed.map Prod.fst
  entryId := uuidBytes e.id
  idempotencyKey := e.idempotencyKey.bytes
  contentHash := Blake3.asBytes contentHash
  bookingDate := sqlText e.bookingDate
  valueDate := sqlText e.valueDate
  description := e.description.text
  kind := e.kind.map Label.text
  provenanceActor := e.provenance.actor.map Label.text
  provenanceSource := e.provenance.source.map Label.text
  provenanceCorrelation := e.provenance.correlation.map Label.text
  documentId := e.document.map fun d => d.id.text
  documentContentHash := e.document.bind fun d => d.contentHash.map Blake3.asBytes
  reverses := e.reverses.map uuidBytes
  originalBookingDate := e.originalBookingDate.map sqlText
  treeRoot := placed.map fun p => Blake3.asBytes p.2

omit [HashBytes H] in
/-- What `INSERT INTO postings` binds. mirrors src/storage/sqlite.rs:524-540 -/
def postingColumns (id : EntryId) (position : Nat) (posting : Posting P) : PostingColumns where
  entryId := uuidBytes id
  postingIndex := position
  accountIndex := posting.account.index
  direction := directionStr posting.direction
  amountMinor := posting.amount.minor
  amountFits := posting.amount.fits
  currency := currencyCode posting.currency
  layer := layerStr posting.layer

/-- What `INSERT INTO posting_dimensions` binds. mirrors src/storage/sqlite.rs:542-553 -/
def dimensionColumns (id : EntryId) (position : Nat) (axis : Label × Label) : DimensionColumns :=
  ⟨uuidBytes id, position, axis.1.text, axis.2.text⟩

/-! ## Reading a posting -/

/-- `u32::try_from(account).unwrap_or(0)` -/
def accountOf (index : Nat) : AccountId := if h : index < 2 ^ 32 then ⟨index, h⟩ else ⟨0, by omega⟩

/-- mirrors src/storage/sqlite.rs:745-772 -/
def buildPosting (row : PostingColumns) : Except (RowError H) (Posting P) := do
  let direction ← readDirection row.direction
  let layer ← readLayer row.layer
  let currency ← readCurrency row.currency
  .ok ⟨accountOf row.accountIndex, direction, ⟨row.amountMinor, row.amountFits⟩, currency, layer, .none⟩

omit [HashBytes H] in
theorem buildPosting_postingColumns (id : EntryId) (position : Nat) (posting : Posting P) :
    buildPosting (H := H) (postingColumns id position posting) = .ok { posting with dimensions := .none } := by
  have haccount : accountOf posting.account.index = posting.account := dif_pos posting.account.fits
  simp [buildPosting, postingColumns, haccount, bind, Except.bind]

/-! ## Reading an entry -/

variable {draft : Entry H .draft P}

def readLabel (s : String) : Except (RowError H) Label := (Label.new s).mapError fun e => .malformed (.dimension e)

/-- `row.try_get::<Date, _>` -/
def readDate (text : List Char) : Except (RowError H) Date :=
  match parseDate text with
  | some d => .ok d
  | none => .error .database

/-- `row.try_get::<Option<Date>, _>` -/
def readOptionalDate : Option (List Char) → Except (RowError H) (Option Date)
  | some text => (readDate text).map some
  | none => .ok none

/-- mirrors src/storage/sqlite.rs:839-855 -/
def readProvenance (row : EntryColumns) : Except (RowError H) Provenance := do
  let p ← match row.provenanceActor with
    | some v => (Provenance.none.withActor v).mapError fun e => .malformed (.dimension e)
    | none => .ok .none
  let p ← match row.provenanceSource with
    | some v => (p.withSource v).mapError fun e => .malformed (.dimension e)
    | none => .ok p
  match row.provenanceCorrelation with
    | some v => (p.withCorrelation v).mapError fun e => .malformed (.dimension e)
    | none => .ok p

/-- mirrors src/storage/sqlite.rs:868-871 -/
def addKind (draft : Entry H .draft P) : Option String → Except (RowError H) (Entry H .draft P)
  | some kind => (readLabel kind).map draft.withKind
  | none => .ok draft

/-- The hash is optional by itself. mirrors src/storage/sqlite.rs:873-883 -/
def addDocument (draft : Entry H .draft P) (id : Option String) (stored : Option Bytes) :
    Except (RowError H) (Entry H .draft P) :=
  match id with
  | none => .ok draft
  | some id =>
    match stored with
    | some hash => do
      let hash ← hashFromBytes hash
      let document ← (DocumentRef.new id hash).mapError fun e => .malformed (.dimension e)
      .ok (draft.withDocument document)
    | none => ((DocumentRef.unverified id).mapError fun e => .malformed (.dimension e)).map draft.withDocument

/-- Both columns or neither. mirrors src/storage/sqlite.rs:884-889 -/
def addReversal (draft : Entry H .draft P) (reverses : Option Bytes) (original : Option Date) :
    Except (RowError H) (Entry H .draft P) :=
  match reverses, original with
  | some reverses, some original => (uuidFromBytes reverses).map fun id => draft.reversing id original
  | _, _ => .ok draft

/-- mirrors src/storage/sqlite.rs:822-894 -/
def buildStoredEntry [DecidableEq H] (row : EntryColumns) (postings : List (Posting P)) :
    Except (RowError H) (StoredEntry H P) := do
  let id ← uuidFromBytes row.entryId
  let storedHash ← hashFromBytes row.contentHash
  let bookingDate ← readDate row.bookingDate
  let valueDate ← readDate row.valueDate
  let provenance ← readProvenance row
  let key ← (IdempotencyKey.new row.idempotencyKey).mapError fun e => .malformed (.field e)
  let description ← (Description.new row.description).mapError fun e => .malformed (.field e)
  let draft := (((Entry.new id key bookingDate).withValueDate valueDate).withDescription description).withProvenance provenance
  let draft ← addKind draft row.kind
  let draft ← addDocument draft row.documentId row.documentContentHash
  let original ← readOptionalDate row.originalBookingDate
  let draft ← addReversal draft row.reverses original
  let entry ← ((postings.foldl Entry.post draft).adoptVerified storedHash).mapError .integrity
  .ok ⟨⟨entry, storedHash⟩, row.logIndex⟩

/-! ## What is read back -/

@[simp] theorem new_text (l : Label) : Label.new l.text = .ok l := by
  unfold Label.new
  split
  · rfl
  · rename_i e h
    rw [l.checked] at h
    cases h

omit [HashBytes H] in
@[simp] theorem readDate_sqlText (d : Date) : readDate (H := H) (sqlText d) = .ok d := by rw [readDate, parseDate_sqlText]

omit [HashBytes H] in
@[simp] theorem readOptionalDate_sqlText (d : Option Date) : readOptionalDate (H := H) (d.map sqlText) = .ok d := by
  cases d with
  | none => rfl
  | some d =>
    rw [Option.map_some, readOptionalDate, readDate_sqlText]
    rfl

theorem readProvenance_columns (e : Entry H .balanced P) (contentHash : H) (placed : Option (Nat × H)) :
    readProvenance (H := H) (entryColumns e contentHash placed) = .ok e.provenance := by
  rcases hp : e.provenance with ⟨actor, source, correlation⟩
  cases actor <;> cases source <;> cases correlation <;>
    simp [readProvenance, entryColumns, hp, Provenance.none, Provenance.withActor, Provenance.withSource,
      Provenance.withCorrelation, Except.map, bind, Except.bind, Except.mapError]

omit [HashBytes H] in
theorem addKind_text (hd : draft.kind = none) (kind : Option Label) :
    addKind draft (kind.map Label.text) = .ok { draft with kind := kind } := by
  cases kind with
  | none =>
    obtain ⟨⟩ := draft
    cases hd
    rfl
  | some l => simp [addKind, readLabel, Entry.withKind, Except.map, Except.mapError]

theorem addDocument_columns (hd : draft.document = none) (document : Option (DocumentRef H)) :
    addDocument draft (document.map fun d => d.id.text) (document.bind fun d => d.contentHash.map Blake3.asBytes) =
      .ok { draft with document := document } := by
  cases document with
  | none =>
    obtain ⟨⟩ := draft
    cases hd
    rfl
  | some d =>
    obtain ⟨id, contentHash⟩ := d
    cases contentHash <;>
      simp [addDocument, DocumentRef.new, DocumentRef.unverified, hashFromBytes_asBytes, Entry.withDocument, Except.map,
        bind, Except.bind, Except.mapError]

omit [HashBytes H] in
theorem addReversal_columns (hr : draft.reverses = none) (ho : draft.originalBookingDate = none)
    {reverses : Option EntryId} {original : Option Date} (hpair : reverses.isSome = original.isSome) :
    addReversal draft (reverses.map uuidBytes) original =
      .ok { draft with reverses := reverses, originalBookingDate := original } := by
  cases reverses with
  | none =>
    cases original with
    | none =>
      obtain ⟨⟩ := draft
      cases hr
      cases ho
      rfl
    | some d => cases hpair
  | some id =>
    cases original with
    | none => cases hpair
    | some d => simp [addReversal, uuidFromBytes_uuidBytes, Entry.reversing, Except.map]

omit [HashBytes H] in
theorem foldl_post (ps : List (Posting P)) (draft : Entry H .draft P) :
    ps.foldl Entry.post draft = { draft with postings := draft.postings ++ ps } := by
  induction ps generalizing draft with
  | nil => simp
  | cons p ps ih =>
    rw [List.foldl_cons, ih]
    simp [Entry.post]

/-- **A row is read back as the entry it was bound from.** -/
theorem buildStoredEntry_columns [DecidableEq H] (e : Entry H .balanced P) (placed : Option (Nat × H))
    (hpair : e.reverses.isSome = e.originalBookingDate.isSome) :
    buildStoredEntry (entryColumns e e.contentHash placed) e.postings =
      .ok ⟨⟨e, e.contentHash⟩, placed.map Prod.fst⟩ := by
  unfold buildStoredEntry
  rw [readProvenance_columns]
  simp only [entryColumns, uuidFromBytes_uuidBytes, hashFromBytes_asBytes, readDate_sqlText, IdempotencyKey.new_bytes,
    Description.new_text, Except.mapError, bind, Except.bind]
  rw [addKind_text rfl]
  simp only
  rw [addDocument_columns rfl]
  simp only [readOptionalDate_sqlText]
  rw [addReversal_columns rfl rfl hpair]
  have hadopt : (e.withState .draft).adoptVerified e.contentHash = .ok e := Entry.adoptVerified_eq_ok.2 ⟨rfl, rfl⟩
  rw [Entry.withState] at hadopt
  simp only [foldl_post, Entry.new, Entry.withValueDate, Entry.withDescription, Entry.withProvenance, List.nil_append,
    hadopt]

end

end DoubleEntry.L4
