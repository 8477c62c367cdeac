import DoubleEntry.Core.LTS
import DoubleEntry.L1Values.Encoding
import DoubleEntry.L2Merkle.Proofs
import DoubleEntry.L3Ledger.JournalRun

/-!
# What the last seal of a chain binds

A seal's hash covers every other field (`SealBody.eq_of_encode`), the hash of its
predecessor among them. So the hash of the last seal of a chain that verifies
determines the chain (`seals_of_head`).

`push` and `verify` apply one rule, `check_link`, with sets of periods of their own:
pushing seals succeeds exactly when the loop of `verify` accepts them
(`foldlM_push`). A chain made by pushes therefore verifies, and is rebuilt from its
seals (`chain_binding`).

**Assumptions.** `Binding`, of the hash, and that counters fit a `u64` (`Fits`) where two chains
are compared. None for chains made by pushes.

**Results.**
* `Seal.eq_of_sealHash`: self-consistent seals with one hash are one.
* `fromSeals_of_reachable`, `verify_of_reachable`: chains made by pushes.
* `chain_binding`: all of it, and that a refused push changes nothing.
-/
namespace DoubleEntry.L3

open DoubleEntry.Core DoubleEntry.L1 DoubleEntry.L2

/-! ## The bytes of a seal -/

theorem selfDelimiting_writeU64 : SelfDelimiting (fun n => n < 2 ^ 64) writeU64 := selfDelimiting_leBytes 8

theorem selfDelimiting_periodId : SelfDelimiting (fun _ => True) (Canonical.encode : PeriodId → Bytes) := by
  refine selfDelimiting_label.comp (k := PeriodId.label) (fun _ _ => trivial) fun a b h => ?_
  cases a
  cases b
  simpa using h

theorem selfDelimiting_ledgerId : SelfDelimiting (fun _ => True) (Canonical.encode : LedgerId → Bytes) := by
  refine selfDelimiting_label.comp (k := LedgerId.label) (fun _ _ => trivial) fun a b h => ?_
  cases a
  cases b
  simpa using h

variable {H : Type}

/-- Its numbers are in the range of the source's `u64`. -/
structure SealBody.Fits (s : SealBody H) : Prop where
  firstIndex : ∀ i ∈ s.firstIndex, i < 2 ^ 64
  lastIndex : ∀ i ∈ s.lastIndex, i < 2 ^ 64
  entryCount : s.entryCount < 2 ^ 64
  treeHead : s.treeHead.size < 2 ^ 64
  trialBalance : s.trialBalance.size < 2 ^ 64
  accounts : s.accounts.size < 2 ^ 64

theorem TreeHead.ext {a b : TreeHead H} (hsize : a.size = b.size) (hroot : a.root = b.root) : a = b := by
  cases a
  cases b
  simp only [TreeHead.mk.injEq]
  exact ⟨hsize, hroot⟩

/-- **The bytes of a seal determine its fields**, its own hash apart. -/
theorem SealBody.eq_of_encode [Blake3 H] (hbytes : SelfDelimiting (fun _ => True) (Blake3.asBytes : H → Bytes))
    {s s' : SealBody H} (hs : s.Fits) (hs' : s'.Fits) (h : Canonical.encode s = Canonical.encode s') : s = s' := by
  have hindex := selfDelimiting_writeOption selfDelimiting_writeU64
  have hroot : ∀ (a b : H) (x y : Bytes), Blake3.asBytes a ++ x = Blake3.asBytes b ++ y → a = b ∧ x = y :=
    fun a b x y => hbytes a b x y trivial trivial
  simp only [Canonical.encode, List.append_assoc] at h
  obtain ⟨hledger, h⟩ := selfDelimiting_ledgerId s.ledger s'.ledger _ _ trivial trivial h
  obtain ⟨hperiod, h⟩ := selfDelimiting_periodId s.period s'.period _ _ trivial trivial h
  obtain ⟨hfirst, h⟩ := hindex _ _ _ _ hs.firstIndex hs'.firstIndex h
  obtain ⟨hlast, h⟩ := hindex _ _ _ _ hs.lastIndex hs'.lastIndex h
  obtain ⟨hcount, h⟩ := selfDelimiting_writeU64 _ _ _ _ hs.entryCount hs'.entryCount h
  obtain ⟨htree, h⟩ := selfDelimiting_writeU64 _ _ _ _ hs.treeHead hs'.treeHead h
  obtain ⟨htreeRoot, h⟩ := hroot _ _ _ _ h
  obtain ⟨hrows, h⟩ := selfDelimiting_writeU64 _ _ _ _ hs.trialBalance hs'.trialBalance h
  obtain ⟨hrowsRoot, h⟩ := hroot _ _ _ _ h
  obtain ⟨haccounts, h⟩ := selfDelimiting_writeU64 _ _ _ _ hs.accounts hs'.accounts h
  obtain ⟨haccountsRoot, h⟩ := hroot _ _ _ _ h
  obtain ⟨hprev, -⟩ := selfDelimiting_writeOption hbytes _ _ [] [] (fun _ _ => trivial) (fun _ _ => trivial)
    (by simpa using h)
  have htreeHead := TreeHead.ext htree htreeRoot
  have htrialBalance := TreeHead.ext hrows hrowsRoot
  have haccountsHead := TreeHead.ext haccounts haccountsRoot
  cases s
  cases s'
  simp only [SealBody.mk.injEq]
  exact ⟨hledger, hperiod, hfirst, hlast, hcount, htreeHead, htrialBalance, haccountsHead, hprev⟩

variable [Blake3 H] [DecidableEq H]

theorem Seal.eq_of_sealHash (hb : Binding H) {s s' : Seal H} (hs : s.toSealBody.Fits) (hs' : s'.toSealBody.Fits)
    (hself : s.isSelfConsistent = true) (hself' : s'.isSelfConsistent = true) (h : s.sealHash = s'.sealHash) :
    s = s' := by
  have hhash : Seal.computeHash s.toSealBody = s.sealHash := of_decide_eq_true hself
  have hhash' : Seal.computeHash s'.toSealBody = s'.sealHash := of_decide_eq_true hself'
  have hcompute : Seal.computeHash s.toSealBody = Seal.computeHash s'.toSealBody := by rw [hhash, hhash', h]
  have hbody := SealBody.eq_of_encode hb.bytes hs hs' (hb.tagged _ _ _ hcompute)
  cases s
  cases s'
  simp only [Seal.mk.injEq]
  exact ⟨hbody, h⟩

namespace SealChain

/-! ## Checking a chain -/

/-- The loop of `verify`, with the periods seen and the seal before.
mirrors src/seal.rs:913-920 -/
def verifyLoop (ledger : LedgerId) : OrdMap PeriodId Unit → Option (Seal H) → List (Seal H) → Except SealChainError Unit
  | _, _, [] => .ok ()
  | seen, previous, s :: seals =>
    match checkLink ledger seen previous s with
    | .error e => .error e
    | .ok () => verifyLoop ledger (seen.insert s.period ()) (some s) seals

/-- mirrors src/seal.rs:910-922 -/
def verify (c : SealChain H) : Except SealChainError Unit := verifyLoop c.ledger .empty none c.seals

theorem checkLink_eq_ok {ledger : LedgerId} {seen : OrdMap PeriodId Unit} {previous : Option (Seal H)} {s : Seal H} :
    checkLink ledger seen previous s = .ok () ↔ s.isSelfConsistent = true ∧ s.ledger = ledger ∧
      seen.contains s.period = false ∧ s.prevSeal = previous.map (·.sealHash) ∧
      ∀ prev ∈ previous, prev.treeHead.size ≤ s.treeHead.size ∧ prev.accounts.size ≤ s.accounts.size := by
  unfold checkLink
  by_cases hself : s.isSelfConsistent = true
  · by_cases hledger : s.ledger = ledger
    · by_cases hseen : seen.contains s.period = true
      · simp [hself, hledger, hseen]
      · simp only [hself, hledger, hseen]
        cases previous with
        | none => cases s.prevSeal <;> simp
        | some prev =>
          cases s.prevSeal with
          | none => simp
          | some reference =>
            by_cases hlink : prev.sealHash = reference
            · by_cases htree : s.treeHead.size < prev.treeHead.size
              · simp [hlink, htree]
              · by_cases haccounts : s.accounts.size < prev.accounts.size
                · simp [hlink, htree, haccounts]
                · simp [hlink, htree, haccounts]
                  omega
            · simp [hlink, Ne.symm hlink]
    · simp [hself, hledger]
  · simp [hself]

/-- A chain verifies when all but its last seal do and the last one links. -/
theorem verifyLoop_concat {ledger : LedgerId} {s : Seal H} {seals : List (Seal H)} :
    ∀ {seen : OrdMap PeriodId Unit} {previous : Option (Seal H)}, verifyLoop ledger seen previous (seals ++ [s]) = .ok () →
      verifyLoop ledger seen previous seals = .ok () ∧
      ∃ seen', checkLink ledger seen' (seals.getLast?.or previous) s = .ok () := by
  induction seals with
  | nil =>
    intro seen previous h
    simp only [List.nil_append, verifyLoop] at h
    split at h
    · cases h
    · exact ⟨rfl, seen, by assumption⟩
  | cons x seals ih =>
    intro seen previous h
    simp only [List.cons_append, verifyLoop] at h ⊢
    split at h
    · cases h
    · rename_i hx
      obtain ⟨hrest, seen', hlink⟩ := ih h
      have hlast : (x :: seals).getLast?.or previous = seals.getLast?.or (some x) := by
        cases seals <;> simp [List.getLast?_cons]
      rw [hlast]
      exact ⟨by simpa [hx] using hrest, seen', hlink⟩

/-- The counters of every seal are in range. -/
def Fits (c : SealChain H) : Prop := ∀ s ∈ c.seals, s.toSealBody.Fits

/-- Going back from the last seals, which are equal, to the first. -/
theorem seals_of_head (hb : Binding H) {ledger ledger' : LedgerId} {seals : List (Seal H)} :
    ∀ {seals' : List (Seal H)}, (∀ s ∈ seals, s.toSealBody.Fits) → (∀ s ∈ seals', s.toSealBody.Fits) →
      verifyLoop ledger .empty none seals = .ok () → verifyLoop ledger' .empty none seals' = .ok () →
      seals.getLast?.map (·.sealHash) = seals'.getLast?.map (·.sealHash) → seals = seals' := by
  induction seals using List.reverseRecOn with
  | nil =>
    intro seals' _ _ _ _ h
    cases seals' using List.reverseRecOn with
    | nil => rfl
    | append_singleton seals' s' => simp at h
  | append_singleton seals s ih =>
    intro seals' hf hf' hv hv' h
    cases seals' using List.reverseRecOn with
    | nil => simp at h
    | append_singleton seals' s' =>
      obtain ⟨hseals, seen, hlink⟩ := verifyLoop_concat hv
      obtain ⟨hseals', seen', hlink'⟩ := verifyLoop_concat hv'
      obtain ⟨hself, -, -, hprev, -⟩ := checkLink_eq_ok.1 hlink
      obtain ⟨hself', -, -, hprev', -⟩ := checkLink_eq_ok.1 hlink'
      have hhash : s.sealHash = s'.sealHash := by simpa using h
      have hs : s = s' := Seal.eq_of_sealHash hb (hf s (by simp)) (hf' s' (by simp)) hself hself' hhash
      subst hs
      rw [hprev, Option.or_none, Option.or_none] at hprev'
      rw [ih (fun x hx => hf x (List.mem_append_left _ hx)) (fun x hx => hf' x (List.mem_append_left _ hx)) hseals
        hseals' hprev']

/-! ## Chains made by pushes -/

/-- Pushing seals succeeds when the loop of `verify` accepts them. -/
theorem foldlM_push {seals : List (Seal H)} : ∀ {c c' : SealChain H}, seals.foldlM push c = .ok c' ↔
    verifyLoop c.ledger c.periods c.seals.getLast? seals = .ok () ∧ c' = seals.foldl add c := by
  induction seals with
  | nil =>
    intro c c'
    simp [verifyLoop, pure, Except.pure, eq_comm]
  | cons s seals ih =>
    intro c c'
    simp only [List.foldlM_cons, bind_eq_ok, verifyLoop, List.foldl_cons]
    cases hlink : checkLink c.ledger c.periods c.seals.getLast? s with
    | error e => simp [push, hlink]
    | ok u =>
      have hlast : (c.add s).seals.getLast? = some s := List.getLast?_concat
      have hrest := @ih (c.add s) c'
      rw [hlast] at hrest
      simp only [push, hlink, Except.ok.injEq, exists_eq_left']
      exact hrest

/-- What a push leaves behind. mirrors src/seal.rs:894-899 -/
def offer (c : SealChain H) (s : Seal H) : SealChain H :=
  match c.push s with
  | .ok c' => c'
  | .error _ => c

/-- Any seals pushed on a new chain of `ledger`, accepted or refused. -/
def pushes (ledger : LedgerId) : LTS (SealChain H) (Seal H) where
  init c := c = new ledger
  step c s c' := c' = c.offer s

/-- A chain made by pushes is what its seals rebuild. -/
theorem fromSeals_of_reachable {ledger : LedgerId} {c : SealChain H} (h : (pushes ledger).Reachable c) :
    fromSeals ledger c.seals = .ok c := by
  refine LTS.Inductive.reachable (T := pushes ledger) (I := fun c => fromSeals ledger c.seals = .ok c) ⟨?_, ?_⟩ h
  · intro c hc
    obtain rfl : c = new ledger := hc
    rfl
  · intro c s c' hc hstep
    obtain rfl : c' = c.offer s := hstep
    unfold offer
    cases hp : c.push s with
    | error e => exact hc
    | ok c' =>
      obtain ⟨rfl, -, -⟩ := push_eq_ok hp
      unfold fromSeals at hc ⊢
      rw [show (c.add s).seals = c.seals ++ [s] from rfl, List.foldlM_append]
      exact bind_eq_ok.2 ⟨c, hc, bind_eq_ok.2 ⟨c.add s, hp, rfl⟩⟩

omit [Blake3 H] [DecidableEq H] in
theorem ledger_foldl_add (seals : List (Seal H)) : ∀ c : SealChain H, (seals.foldl add c).ledger = c.ledger := by
  induction seals with
  | nil => exact fun c => rfl
  | cons s seals ih => exact fun c => ih (c.add s)

omit [Blake3 H] [DecidableEq H] in
theorem seals_foldl_add (seals : List (Seal H)) : ∀ c : SealChain H, (seals.foldl add c).seals = c.seals ++ seals := by
  induction seals with
  | nil => exact fun c => (List.append_nil _).symm
  | cons x seals ih =>
    intro c
    rw [List.foldl_cons, ih, show (c.add x).seals = c.seals ++ [x] from rfl, List.append_assoc]
    rfl

omit [Blake3 H] [DecidableEq H] in
theorem periods_foldl_add {seals : List (Seal H)} : ∀ {c : SealChain H} {id : PeriodId},
    (seals.foldl add c).periods.contains id = true → c.periods.contains id = true ∨ ∃ x ∈ seals, x.period = id := by
  induction seals with
  | nil => exact fun h => .inl h
  | cons x seals ih =>
    intro c id h
    rcases ih h with h | ⟨y, hy, hid⟩
    · obtain ⟨u, hu⟩ := OrdMap.contains_iff.1 h
      rw [show (c.add x).periods = c.periods.insert x.period () from rfl, OrdMap.get?_insert] at hu
      by_cases hx : x.period = id
      · exact .inr ⟨x, List.mem_cons_self, hx⟩
      · rw [if_neg hx] at hu
        exact .inl (OrdMap.contains_iff.2 ⟨u, hu⟩)
    · exact .inr ⟨y, List.mem_cons_of_mem _ hy, hid⟩

/-- What `from_seals` returns. -/
theorem fromSeals_ok {ledger : LedgerId} {seals : List (Seal H)} {c : SealChain H}
    (h : fromSeals ledger seals = .ok c) : c.ledger = ledger ∧ c.seals = seals ∧ c.verify = .ok () ∧
      ∀ id, c.periods.contains id = true → ∃ x ∈ seals, x.period = id := by
  obtain ⟨hv, rfl⟩ := foldlM_push.1 h
  have hledger := ledger_foldl_add seals (new ledger)
  have hseals : (seals.foldl add (new ledger)).seals = seals := seals_foldl_add seals _
  refine ⟨hledger, hseals, ?_, fun id hid => (periods_foldl_add hid).resolve_left fun h => by cases h⟩
  rw [verify, hledger, hseals]
  exact hv

/-- And it verifies, as a chain of its ledger. -/
theorem verify_of_reachable {ledger : LedgerId} {c : SealChain H} (h : (pushes ledger).Reachable c) :
    c.ledger = ledger ∧ c.verify = .ok () := by
  obtain ⟨hv, hall⟩ := foldlM_push.1 (fromSeals_of_reachable h)
  have hledger : c.ledger = ledger := by
    conv_lhs => rw [hall]
    exact ledger_foldl_add c.seals (new ledger)
  refine ⟨hledger, ?_⟩
  rw [verify, hledger]
  exact hv

/-- **The last hash binds the chain.** Chains that verify and have one head hold the
same seals; a chain made by pushes verifies and is rebuilt from its seals; a refused
push leaves it unchanged. -/
theorem chain_binding (hb : Binding H) (ledger : LedgerId) :
    (∀ c c' : SealChain H, c.ledger = ledger → c'.ledger = ledger → c.Fits → c'.Fits → c.verify = .ok () →
      c'.verify = .ok () → c.head = c'.head → c.seals = c'.seals) ∧
    (∀ c : SealChain H, (pushes ledger).Reachable c → c.verify = .ok () ∧ fromSeals ledger c.seals = .ok c) ∧
    ∀ (c : SealChain H) (s : Seal H) (e : SealChainError), c.push s = .error e → c.offer s = c := by
  refine ⟨fun c c' _ _ hf hf' hv hv' h => seals_of_head hb hf hf' hv hv' h, fun c hc => ?_, fun c s e he => ?_⟩
  · exact ⟨(verify_of_reachable hc).2, fromSeals_of_reachable hc⟩
  · simp only [offer, he]

/-! ## March and April -/

/-- A sale of ten euro, as `e` is one. -/
def framedSale (e : Entry Preimage .draft cents) : Entry Framed .draft cents :=
  ((Entry.new e.id e.idempotencyKey e.bookingDate).post (.debit cashId tenEuro .eur)).post (.credit salesId tenEuro .eur)

/-- Two accounts, two periods, and the sale of March. -/
def marchBooks : Journal Framed cents :=
  ((Journal.new books).withPolicy .permissive).afterAll
    [.register cash, .register sales, .definePeriod march, .definePeriod april, .record (framedSale saleOfMarch)]

def aprilBooks : Journal Framed cents := marchBooks.after (.record (framedSale saleOfApril))

def marchSeal : Seal Framed := marchBooks.buildSeal march marchBooks.balances march.id

/-- The seal of April has the hash of the one of March. -/
def aprilSeal : Seal Framed :=
  .build books april.id (coverageOf aprilBooks.entries april.start april.end) aprilBooks.head aprilBooks.balances
    aprilBooks.accounts.commitment (some marchSeal.sealHash)

set_option maxRecDepth 10000 in
theorem fits_sales : marchSeal.toSealBody.Fits ∧ aprilSeal.toSealBody.Fits :=
  ⟨⟨by decide, by decide, by decide, by decide, by decide, by decide⟩,
    by decide, by decide, by decide, by decide, by decide, by decide⟩

theorem push_of_checkLink {c : SealChain H} {s : Seal H} (h : checkLink c.ledger c.periods c.seals.getLast? s = .ok ()) :
    c.push s = .ok (c.add s) := by
  unfold push
  rw [h]

theorem isSelfConsistent_build {P : Scale} (ledger : LedgerId) (period : PeriodId) (coverage : PeriodCoverage)
    (head accounts : TreeHead H) (tb : TrialBalance P) (prev : Option H) :
    (Seal.build ledger period coverage head tb accounts prev).isSelfConsistent = true := decide_eq_true rfl

set_option maxRecDepth 10000 in
theorem push_sales : (new books).push marchSeal = .ok ((new books).add marchSeal) ∧
    ((new books).add marchSeal).push aprilSeal = .ok (((new books).add marchSeal).add aprilSeal) := by
  constructor
  · exact push_of_checkLink (checkLink_eq_ok.2 ⟨isSelfConsistent_build .., rfl, rfl, rfl, fun _ hp => by cases hp⟩)
  · refine push_of_checkLink (checkLink_eq_ok.2 ⟨isSelfConsistent_build .., rfl, by decide, rfl, fun prev hp => ?_⟩)
    obtain rfl : marchSeal = prev := Option.some.inj hp
    exact ⟨by decide, by decide⟩

/-- Not vacuous: the chain of both seals verifies and is rebuilt from them, no other one has the
hash of the second, and it takes neither of them again. -/
theorem aprilSeal_binds : ∃ c : SealChain Framed, c.seals = [marchSeal, aprilSeal] ∧ c.verify = .ok () ∧
    fromSeals books [marchSeal, aprilSeal] = .ok c ∧
    (∀ c' : SealChain Framed, c'.ledger = books → c'.Fits → c'.verify = .ok () → c'.head = some aprilSeal.sealHash →
      c'.seals = [marchSeal, aprilSeal]) ∧
    c.offer marchSeal = c := by
  obtain ⟨hbind, hpushed, hrefused⟩ := chain_binding binding_framed books
  have hreach : (pushes books).Reachable (((new books).add marchSeal).add aprilSeal) := by
    have hmarch : (new books).add marchSeal = (new books).offer marchSeal := by rw [offer, push_sales.1]
    have hapril : ((new books).add marchSeal).add aprilSeal = ((new books).add marchSeal).offer aprilSeal := by
      rw [offer, push_sales.2]
    exact ((LTS.Reachable.of_init (T := pushes books) rfl).step (l := marchSeal) hmarch).step (l := aprilSeal) hapril
  obtain ⟨hverify, hrebuilt⟩ := hpushed _ hreach
  have hfits : (((new books).add marchSeal).add aprilSeal).Fits := fun s hs => by
    rcases List.mem_pair.1 hs with rfl | rfl
    · exact fits_sales.1
    · exact fits_sales.2
  have hagain : ∃ e, (((new books).add marchSeal).add aprilSeal).push marchSeal = .error e := by
    cases hp : (((new books).add marchSeal).add aprilSeal).push marchSeal with
    | error e => exact ⟨e, rfl⟩
    | ok c' => exact absurd (push_eq_ok hp).2.2 (by decide)
  obtain ⟨e, he⟩ := hagain
  exact ⟨_, rfl, hverify, hrebuilt, fun c' hledger hf hv hhead => hbind _ _ hledger rfl hf hfits hv hverify hhead,
    hrefused _ _ e he⟩

end SealChain

end DoubleEntry.L3
