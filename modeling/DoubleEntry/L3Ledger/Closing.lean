import DoubleEntry.L3Ledger.Typestate

/-!
# Closing a period into equity

`closing_postings` flattens the accounts of the given kinds: one posting on the
other side of each net, and one on `equity` per currency for what they come to.

Results:
* `closeRows_closes`: after any number of rows, the postings so far flatten those
  in scope, and the offsets are what they leave open in each currency.
* `closing_flattens`: what comes back balances; applied, it makes the net of every
  account in scope zero and touches nothing else but equity; and then there is
  nothing left to close.
* `netMinor_of_applyAll`: postings move the net of a key by what they add to it.

**Assumptions.** Any trial balance, kinds, equity account and layer for which the call returns
postings; a net or an offset that does not fit `i64` is an error. What is said of the balances
afterwards is for postings that are applied without overflow.
-/
namespace DoubleEntry.L3

open DoubleEntry.Core DoubleEntry.L1

variable {P : Scale}

/-! ## Nets -/

/-- mirrors src/balance.rs:44-50 -/
def Balance.net (b : Balance P) : Except MoneyError (Direction × Amount P) :=
  if b.credits ≤ b.debits then (b.debits.checkedSub b.credits).map fun a => (.debit, a)
  else (b.credits.checkedSub b.debits).map fun a => (.credit, a)

/-- Debits less credits, whatever the range. -/
def Balance.netMinor (b : Balance P) : Int := b.side .debit - b.side .credit

/-- An amount on a side, debit positive. -/
def Direction.signed (n : Int) : Direction → Int
  | .debit => n
  | .credit => -n

/-- What a posting adds to the net of its account. -/
def Posting.signed (p : Posting P) : Int := p.direction.signed p.amount.minor

theorem Balance.net_eq_ok {b : Balance P} {side : Direction} {magnitude : Amount P} (h : b.net = .ok (side, magnitude)) :
    0 ≤ magnitude.minor ∧ side.signed magnitude.minor = b.netMinor := by
  unfold net at h
  by_cases hle : b.credits ≤ b.debits
  · rw [if_pos hle] at h
    obtain ⟨a, ha, he⟩ := map_eq_ok.1 h
    cases he
    have hminor := Amount.checkedSub_eq_ok.1 ha
    have hle' := Amount.le_iff.1 hle
    exact ⟨by omega, hminor⟩
  · rw [if_neg hle] at h
    obtain ⟨a, ha, he⟩ := map_eq_ok.1 h
    cases he
    have hminor := Amount.checkedSub_eq_ok.1 ha
    have hle' : ¬ b.credits.minor ≤ b.debits.minor := fun h => hle (Amount.le_iff.2 h)
    refine ⟨by omega, ?_⟩
    simp only [Direction.signed, netMinor, side]
    omega

theorem Balance.net_of_flat {b : Balance P} (h : b.netMinor = 0) : b.net = .ok (.debit, .zero) := by
  have heq : b.debits.minor = b.credits.minor := by
    simp only [netMinor, side] at h
    omega
  have hsub : b.debits.checkedSub b.credits = .ok Amount.zero := by
    rw [Amount.checkedSub_eq_ok, heq, sub_self]
    rfl
  rw [net, if_pos (Amount.le_iff.2 heq.ge), hsub]
  rfl

/-- What the postings add to the net of a key. -/
def keyNet (key : BalanceKey) (ps : List (Posting P)) : Int := gross .debit key ps - gross .credit key ps

/-- What the postings come to in a currency, debit positive. -/
def currencyNet (currency : Currency) (ps : List (Posting P)) : Int :=
  currencyTotal .debit currency ps - currencyTotal .credit currency ps

theorem keyNet_concat (key : BalanceKey) (ps : List (Posting P)) (p : Posting P) :
    keyNet key (ps ++ [p]) = keyNet key ps + if p.key = key then p.signed else 0 := by
  simp only [keyNet, gross_concat, Posting.signed]
  by_cases hk : p.key = key
  · cases hd : p.direction with
    | debit =>
      simp [hk, Direction.signed]
      omega
    | credit =>
      simp [hk, Direction.signed]
      omega
  · simp [hk]

theorem currencyNet_concat (currency : Currency) (ps : List (Posting P)) (p : Posting P) :
    currencyNet currency (ps ++ [p]) = currencyNet currency ps + if p.currency = currency then p.signed else 0 := by
  simp only [currencyNet, currencyTotal_concat, Posting.signed]
  by_cases hc : p.currency = currency
  · cases hd : p.direction with
    | debit =>
      simp [hc, Direction.signed]
      omega
    | credit =>
      simp [hc, Direction.signed]
      omega
  · simp [hc]

theorem keyNet_of_not_touches {key : BalanceKey} {ps : List (Posting P)} (h : ¬ Touches ps key) : keyNet key ps = 0 := by
  have hnil : ∀ d, (ps.filter fun p => p.key = key ∧ p.direction = d) = [] := fun d =>
    List.filter_eq_nil_iff.2 fun p hp hk => h ⟨p, hp, by simpa using (of_decide_eq_true hk).1⟩
  rw [keyNet, gross, gross, hnil, hnil]
  rfl

/-- Postings move the net of a key by what they add to it. -/
theorem netMinor_of_applyAll {tb tb' : TrialBalance P} {ps : List (Posting P)} (h : tb.applyAll ps = .ok tb')
    (key : BalanceKey) : (tb'.getOrZero key).netMinor = (tb.getOrZero key).netMinor + keyNet key ps := by
  induction ps using List.reverseRecOn generalizing tb' with
  | nil =>
    cases h
    simp [keyNet]
  | append_singleton ps p ih =>
    obtain ⟨tb₁, h₁, hp⟩ := TrialBalance.applyAll_concat_eq_ok.1 h
    obtain ⟨hrow, hother⟩ := TrialBalance.get_of_apply hp key
    rw [keyNet_concat, ← add_assoc, ← ih h₁]
    by_cases hk : p.key = key
    · obtain ⟨b, hb, hget⟩ := hrow hk
      rw [TrialBalance.getOrZero, hget, Option.getD_some, if_pos hk, Balance.netMinor, Balance.side_add hb, Balance.side_add hb,
        Posting.signed, Balance.netMinor]
      cases p.direction with
      | debit =>
        simp [Direction.signed]
        omega
      | credit =>
        simp [Direction.signed]
        omega
    · rw [TrialBalance.getOrZero, hother hk, if_neg hk, add_zero]
      rfl

/-! ## The model -/

/-- mirrors src/closing.rs:20-38 -/
inductive ClosingError
  | unknownEquityAccount (account : AccountId)
  | equityInScope (account : AccountId)
  | money (e : MoneyError)
  deriving DecidableEq

/-- What the loop over the rows collects. -/
structure ClosingState (P : Scale) where
  offsets : OrdMap Currency (Amount P)
  postings : List (Posting P)

/-- A net as a signed amount, debit positive.
mirrors src/closing.rs:119-123 -/
def carriedNet (magnitude : Amount P) : Direction → Except MoneyError (Amount P)
  | .debit => .ok magnitude
  | .credit => magnitude.checkedNeg

/-- One row of the trial balance.
mirrors src/closing.rs:88-126 -/
def closeRow (accounts : AccountRegistry) (kinds : List AccountKind) (equity : AccountId) (layer : Layer)
    (s : ClosingState P) (row : BalanceKey × Balance P) : Except MoneyError (ClosingState P) :=
  let key := row.1
  if key.layer ≠ layer ∨ key.account = equity then .ok s
  else match (accounts.get key.account).bind (·.kind) with
    | none => .ok s
    | some kind =>
      if ¬ kinds.contains kind then .ok s
      else do
        let (side, magnitude) ← row.2.net
        if magnitude.isZero then .ok s
        else
          let posting : Posting P := ⟨key.account, side.inverse, magnitude, key.currency, layer, .none⟩
          let signed ← carriedNet magnitude side
          let slot ← ((s.offsets.get? key.currency).getD .zero).checkedAdd signed
          .ok ⟨s.offsets.insert key.currency slot, s.postings ++ [posting]⟩

/-- The side of equity that takes an offset.
mirrors src/closing.rs:132-136 -/
def equitySide (net : Amount P) : Except MoneyError (Direction × Amount P) :=
  if net.isPositive then .ok (.debit, net) else net.checkedNeg.map fun magnitude => (.credit, magnitude)

/-- The balancing posting of one currency.
mirrors src/closing.rs:128-146 -/
def equityLeg (equity : AccountId) (layer : Layer) (postings : List (Posting P)) (offset : Currency × Amount P) :
    Except MoneyError (List (Posting P)) :=
  let net := offset.2
  if net.isZero then .ok postings
  else do
    let (direction, magnitude) ← equitySide net
    .ok (postings ++ [⟨equity, direction, magnitude, offset.1, layer, .none⟩])

/-- mirrors src/closing.rs:67-149 -/
def closingPostings (trialBalance : TrialBalance P) (accounts : AccountRegistry) (kinds : List AccountKind)
    (equity : AccountId) (layer : Layer) : Except ClosingError (List (Posting P)) :=
  match accounts.get equity with
  | none => .error (.unknownEquityAccount equity)
  | some account =>
    if account.kind.any kinds.contains then .error (.equityInScope equity)
    else
      (do
        let s ← trialBalance.entries.entries.foldlM (closeRow accounts kinds equity layer) ⟨.empty, []⟩
        s.offsets.entries.foldlM (equityLeg equity layer) s.postings).mapError .money

/-! ## One row, one leg -/

variable {accounts : AccountRegistry} {kinds : List AccountKind} {equity : AccountId} {layer : Layer}

/-- The account has a kind in scope. -/
def InScope (accounts : AccountRegistry) (kinds : List AccountKind) (account : AccountId) : Prop :=
  ∃ a kind, accounts.get account = some a ∧ a.kind = some kind ∧ kind ∈ kinds

/-- The rows that are closed. -/
def Selected (accounts : AccountRegistry) (kinds : List AccountKind) (equity : AccountId) (layer : Layer)
    (key : BalanceKey) : Prop :=
  key.layer = layer ∧ key.account ≠ equity ∧ InScope accounts kinds key.account

/-- All that a row does: nothing, or a posting that flattens it and its net carried over. -/
theorem closeRow_cases {s s' : ClosingState P} {row : BalanceKey × Balance P}
    (h : closeRow accounts kinds equity layer s row = .ok s') :
    (¬ Selected accounts kinds equity layer row.1 ∨ row.2.netMinor = 0) ∧ s' = s ∨
    Selected accounts kinds equity layer row.1 ∧ ∃ (p : Posting P) (slot : Amount P),
      p.key = row.1 ∧ 0 < p.amount.minor ∧ p.signed = -row.2.netMinor ∧
      slot.minor = ((s.offsets.get? row.1.currency).getD .zero).minor + row.2.netMinor ∧
      s' = ⟨s.offsets.insert row.1.currency slot, s.postings ++ [p]⟩ := by
  obtain ⟨⟨account, currency, layer'⟩, b⟩ := row
  unfold closeRow at h
  simp only at h ⊢
  by_cases hskip : layer' ≠ layer ∨ account = equity
  · rw [if_pos hskip] at h
    cases h
    exact .inl ⟨.inl fun hs => hskip.elim (fun hl => hl hs.1) hs.2.1, rfl⟩
  rw [if_neg hskip] at h
  rw [not_or, not_not] at hskip
  cases hkind : (accounts.get account).bind (·.kind) with
  | none =>
    rw [hkind] at h
    cases h
    refine .inl ⟨.inl fun hs => ?_, rfl⟩
    obtain ⟨a, kind, ha, hk, -⟩ := hs.2.2
    simp only at ha
    rw [ha, Option.bind_some, hk] at hkind
    cases hkind
  | some kind =>
    rw [hkind] at h
    simp only at h
    obtain ⟨a, ha, hk⟩ := Option.bind_eq_some_iff.1 hkind
    by_cases hmem : kinds.contains kind = true
    · have hsel : Selected accounts kinds equity layer ⟨account, currency, layer'⟩ :=
        ⟨hskip.1, hskip.2, a, kind, ha, hk, List.contains_iff_mem.1 hmem⟩
      rw [if_neg (not_not.2 hmem)] at h
      obtain ⟨⟨side, magnitude⟩, hnet, h⟩ := bind_eq_ok.1 h
      obtain ⟨hnonneg, hsigned⟩ := Balance.net_eq_ok hnet
      simp only at h
      by_cases hzero : magnitude.isZero = true
      · rw [if_pos hzero] at h
        cases h
        have hm : magnitude.minor = 0 := by simpa [Amount.isZero] using hzero
        refine .inl ⟨.inr ?_, rfl⟩
        rw [← hsigned, hm]
        cases side <;> rfl
      · rw [if_neg hzero] at h
        have hm : magnitude.minor ≠ 0 := by simpa [Amount.isZero] using hzero
        obtain ⟨signed, hs, h⟩ := bind_eq_ok.1 h
        obtain ⟨slot, hslot, h⟩ := bind_eq_ok.1 h
        cases h
        have hcarried : signed.minor = b.netMinor := by
          rw [← hsigned]
          cases side with
          | debit =>
            cases hs
            rfl
          | credit => exact Amount.checked_eq_ok.1 hs
        have hslot' := Amount.checkedAdd_eq_ok.1 hslot
        refine .inr ⟨hsel, ⟨account, side.inverse, magnitude, currency, layer, .none⟩, slot, ?_, ?_, ?_, ?_, rfl⟩
        · rw [Posting.key, hskip.1]
        · simp only
          omega
        · rw [← hsigned, Posting.signed]
          cases side <;> simp [Direction.inverse, Direction.signed]
        · rw [hslot', hcarried]
    · rw [if_pos hmem] at h
      cases h
      refine .inl ⟨.inl fun hs => hmem ?_, rfl⟩
      obtain ⟨a', kind', ha', hk', hin⟩ := hs.2.2
      obtain rfl : a' = a := Option.some.inj (ha'.symm.trans ha)
      obtain rfl : kind' = kind := Option.some.inj (hk'.symm.trans hk)
      exact List.contains_iff_mem.2 hin

theorem equityLeg_cases {ps ps' : List (Posting P)} {offset : Currency × Amount P}
    (h : equityLeg equity layer ps offset = .ok ps') :
    offset.2.minor = 0 ∧ ps' = ps ∨
    ∃ p : Posting P, p.key = ⟨equity, offset.1, layer⟩ ∧ 0 < p.amount.minor ∧ p.signed = offset.2.minor ∧ ps' = ps ++ [p] := by
  obtain ⟨currency, net⟩ := offset
  unfold equityLeg at h
  simp only at h ⊢
  by_cases hzero : net.isZero = true
  · rw [if_pos hzero] at h
    cases h
    exact .inl ⟨by simpa [Amount.isZero] using hzero, rfl⟩
  rw [if_neg hzero] at h
  have hne : net.minor ≠ 0 := by simpa [Amount.isZero] using hzero
  obtain ⟨⟨direction, magnitude⟩, hside, h⟩ := bind_eq_ok.1 h
  cases h
  unfold equitySide at hside
  refine .inr ⟨_, rfl, ?_, ?_, rfl⟩
  · by_cases hpos : net.isPositive = true
    · rw [if_pos hpos] at hside
      cases hside
      simpa [Amount.isPositive] using hpos
    · rw [if_neg hpos] at hside
      obtain ⟨m, hm, he⟩ := map_eq_ok.1 hside
      cases he
      have hminor := Amount.checked_eq_ok.1 hm
      have hnot : ¬ 0 < net.minor := by simpa [Amount.isPositive] using hpos
      simp only
      omega
  · by_cases hpos : net.isPositive = true
    · rw [if_pos hpos] at hside
      cases hside
      rfl
    · rw [if_neg hpos] at hside
      obtain ⟨m, hm, he⟩ := map_eq_ok.1 hside
      cases he
      have hminor := Amount.checked_eq_ok.1 hm
      simp only [Posting.signed, Direction.signed]
      omega

/-! ## The loops -/

/-- The postings so far flatten the rows in scope, and the offsets are what they leave open. -/
structure Closes (accounts : AccountRegistry) (kinds : List AccountKind) (equity : AccountId) (layer : Layer)
    (rows : List (BalanceKey × Balance P)) (s : ClosingState P) : Prop where
  positive : ∀ p ∈ s.postings, 0 < p.amount.minor
  selected : ∀ p ∈ s.postings, Selected accounts kinds equity layer p.key ∧ ∃ row ∈ rows, p.key = row.1
  flat : ∀ row ∈ rows, Selected accounts kinds equity layer row.1 → keyNet row.1 s.postings = -row.2.netMinor
  offset : ∀ currency, ((s.offsets.get? currency).getD .zero).minor = -currencyNet currency s.postings

theorem Closes.row {rows : List (BalanceKey × Balance P)} {row : BalanceKey × Balance P} {s s' : ClosingState P}
    (h : Closes accounts kinds equity layer rows s) (hnew : ∀ r ∈ rows, r.1 ≠ row.1)
    (hrow : closeRow accounts kinds equity layer s row = .ok s') :
    Closes accounts kinds equity layer (rows ++ [row]) s' := by
  have huntouched : keyNet row.1 s.postings = 0 := keyNet_of_not_touches fun ⟨p, hp, hk⟩ => by
    obtain ⟨-, r, hr, hpr⟩ := h.selected p hp
    exact hnew r hr (hpr.symm.trans hk)
  rcases closeRow_cases hrow with ⟨hskip, rfl⟩ | ⟨hsel, p, slot, hkey, hpos, hsigned, hslot, rfl⟩
  · refine ⟨h.positive, fun p hp => ?_, fun r hr hs => ?_, h.offset⟩
    · obtain ⟨hs, r, hr, hpr⟩ := h.selected p hp
      exact ⟨hs, r, List.mem_append_left _ hr, hpr⟩
    · rcases List.mem_append.1 hr with hr | hr
      · exact h.flat r hr hs
      · obtain rfl := List.mem_singleton.1 hr
        have hzero := hskip.resolve_left (not_not.2 hs)
        rw [huntouched, hzero, neg_zero]
  · refine ⟨fun q hq => ?_, fun q hq => ?_, fun r hr hs => ?_, fun currency => ?_⟩
    · rcases List.mem_append.1 hq with hq | hq
      · exact h.positive q hq
      · rw [List.mem_singleton.1 hq]
        exact hpos
    · rcases List.mem_append.1 hq with hq | hq
      · obtain ⟨hs, r, hr, hpr⟩ := h.selected q hq
        exact ⟨hs, r, List.mem_append_left _ hr, hpr⟩
      · rw [List.mem_singleton.1 hq, hkey]
        exact ⟨hsel, row, List.mem_append_right _ List.mem_cons_self, rfl⟩
    · rw [keyNet_concat, hkey]
      rcases List.mem_append.1 hr with hr | hr
      · rw [if_neg fun he => hnew r hr he.symm, add_zero]
        exact h.flat r hr hs
      · obtain rfl := List.mem_singleton.1 hr
        rw [if_pos rfl, huntouched, hsigned, zero_add]
    · have hcurrency : p.currency = row.1.currency := congrArg BalanceKey.currency hkey
      rw [OrdMap.get?_insert, currencyNet_concat, hcurrency]
      by_cases hc : row.1.currency = currency
      · rw [if_pos hc, if_pos hc, Option.getD_some, hslot, hsigned, hc, h.offset currency]
        ring
      · rw [if_neg hc, if_neg hc, add_zero]
        exact h.offset currency

/-- **The loop over the rows.** -/
theorem closeRows_closes {rows : List (BalanceKey × Balance P)} (hkeys : (rows.map Prod.fst).Nodup) {s : ClosingState P}
    (h : rows.foldlM (closeRow accounts kinds equity layer) ⟨.empty, []⟩ = .ok s) :
    Closes accounts kinds equity layer rows s := by
  induction rows using List.reverseRecOn generalizing s with
  | nil =>
    cases h
    exact ⟨fun p hp => absurd hp List.not_mem_nil, fun p hp => absurd hp List.not_mem_nil,
      fun r hr => absurd hr List.not_mem_nil, fun currency => rfl⟩
  | append_singleton rows row ih =>
    rw [List.foldlM_append] at h
    obtain ⟨s₁, h₁, h₂⟩ := bind_eq_ok.1 h
    obtain ⟨s₂, hrow, hlast⟩ := bind_eq_ok.1 (by simpa using h₂ : closeRow accounts kinds equity layer s₁ row >>= pure = .ok s)
    cases hlast
    rw [List.map_append, List.map_singleton, List.nodup_append] at hkeys
    exact (ih hkeys.1 h₁).row (fun r hr he => hkeys.2.2 r.1 (List.mem_map_of_mem hr) row.1 List.mem_cons_self he) hrow

/-- The legs on equity: what the offsets leave, and no other account. -/
structure Legs (equity : AccountId) (layer : Layer) (offsets : List (Currency × Amount P)) (ps ps' : List (Posting P)) :
    Prop where
  positive : (∀ p ∈ ps, 0 < p.amount.minor) → ∀ p ∈ ps', 0 < p.amount.minor
  mem : ∀ p ∈ ps', p ∈ ps ∨ p.account = equity ∧ p.layer = layer
  key : ∀ key, key.account ≠ equity → keyNet key ps' = keyNet key ps
  net : ∀ currency, currencyNet currency ps' =
    currencyNet currency ps + ((OrdMap.lookupList currency offsets).getD .zero).minor

theorem equityLegs {offsets : List (Currency × Amount P)} (hinc : KeysIncreasing offsets) {ps ps' : List (Posting P)}
    (h : offsets.foldlM (equityLeg equity layer) ps = .ok ps') : Legs equity layer offsets ps ps' := by
  induction offsets generalizing ps with
  | nil =>
    cases h
    exact ⟨fun hp => hp, fun p hp => .inl hp, fun _ _ => rfl, fun _ => (add_zero _).symm⟩
  | cons o offsets ih =>
    obtain ⟨hfirst, hinc'⟩ := List.pairwise_cons.1 hinc
    obtain ⟨ps₁, h₁, h₂⟩ := bind_eq_ok.1 (by simpa using h :
      equityLeg equity layer ps o >>= (fun ps => offsets.foldlM (equityLeg equity layer) ps) = .ok ps')
    have hrest := ih hinc' h₂
    have hnone : OrdMap.lookupList o.1 offsets = none := OrdMap.lookupList_none_of_lt hfirst
    have hlookup : ∀ currency, ((OrdMap.lookupList currency (o :: offsets)).getD .zero).minor =
        (if o.1 = currency then o.2.minor else 0) + ((OrdMap.lookupList currency offsets).getD .zero).minor := fun currency => by
      rw [OrdMap.lookupList]
      by_cases hc : o.1 = currency
      · rw [if_pos hc, if_pos hc, ← hc, hnone]
        exact (add_zero _).symm
      · rw [if_neg hc, if_neg hc, zero_add]
    rcases equityLeg_cases h₁ with ⟨hzero, rfl⟩ | ⟨p, hkey, hpos, hsigned, rfl⟩
    · refine ⟨hrest.positive, hrest.mem, hrest.key, fun currency => ?_⟩
      rw [hrest.net, hlookup, hzero, ite_self, zero_add]
    · refine ⟨fun hp => hrest.positive fun q hq => ?_, fun q hq => ?_, fun key hk => ?_, fun currency => ?_⟩
      · rcases List.mem_append.1 hq with hq | hq
        · exact hp q hq
        · rw [List.mem_singleton.1 hq]
          exact hpos
      · rcases hrest.mem q hq with hq | hq
        · rcases List.mem_append.1 hq with hq | hq
          · exact .inl hq
          · rw [List.mem_singleton.1 hq]
            exact .inr ⟨congrArg BalanceKey.account hkey, congrArg BalanceKey.layer hkey⟩
        · exact .inr hq
      · rw [hrest.key key hk, keyNet_concat, if_neg fun he => hk (by rw [← he, hkey]), add_zero]
      · have hcurrency : p.currency = o.1 := congrArg BalanceKey.currency hkey
        rw [hrest.net, currencyNet_concat, hcurrency, hsigned, hlookup, add_assoc]

/-! ## What a closing does -/

theorem closingPostings_eq_ok {tb : TrialBalance P} {postings : List (Posting P)}
    (h : closingPostings tb accounts kinds equity layer = .ok postings) :
    (∃ a, accounts.get equity = some a ∧ a.kind.any kinds.contains = false) ∧
      ∃ s, tb.entries.entries.foldlM (closeRow accounts kinds equity layer) ⟨.empty, []⟩ = .ok s ∧
        s.offsets.entries.foldlM (equityLeg equity layer) s.postings = .ok postings := by
  unfold closingPostings at h
  cases ha : accounts.get equity with
  | none =>
    rw [ha] at h
    cases h
  | some a =>
    rw [ha] at h
    simp only at h
    by_cases hk : a.kind.any kinds.contains = true
    · rw [if_pos hk] at h
      cases h
    · rw [if_neg hk] at h
      exact ⟨⟨a, rfl, Bool.eq_false_iff.2 hk⟩, bind_eq_ok.1 (mapError_eq_ok.1 h)⟩

theorem not_inScope_equity {a : Account} (ha : accounts.get equity = some a) (hk : a.kind.any kinds.contains = false) :
    ¬ InScope accounts kinds equity := fun ⟨a', kind, ha', hkind, hmem⟩ => by
  obtain rfl : a' = a := Option.some.inj (ha'.symm.trans ha)
  rw [hkind, Option.any_some, List.contains_iff_mem.2 hmem] at hk
  cases hk

theorem closeRow_flat {s : ClosingState P} {row : BalanceKey × Balance P}
    (h : Selected accounts kinds equity layer row.1 → row.2.netMinor = 0) :
    closeRow accounts kinds equity layer s row = .ok s := by
  unfold closeRow
  simp only
  by_cases hskip : row.1.layer ≠ layer ∨ row.1.account = equity
  · rw [if_pos hskip]
  rw [if_neg hskip]
  rw [not_or, not_not] at hskip
  cases hkind : (accounts.get row.1.account).bind (·.kind) with
  | none => rfl
  | some kind =>
    simp only
    obtain ⟨a, ha, hk⟩ := Option.bind_eq_some_iff.1 hkind
    by_cases hmem : kinds.contains kind = true
    · rw [if_neg (not_not.2 hmem), Balance.net_of_flat (h ⟨hskip.1, hskip.2, a, kind, ha, hk, List.contains_iff_mem.1 hmem⟩)]
      rfl
    · rw [if_pos hmem]

theorem foldlM_closeRow_flat {rows : List (BalanceKey × Balance P)} {s : ClosingState P}
    (h : ∀ row ∈ rows, Selected accounts kinds equity layer row.1 → row.2.netMinor = 0) :
    rows.foldlM (closeRow accounts kinds equity layer) s = .ok s := by
  induction rows with
  | nil => rfl
  | cons row rows ih =>
    rw [List.foldlM_cons, closeRow_flat (h row List.mem_cons_self)]
    exact ih fun r hr => h r (List.mem_cons_of_mem _ hr)

/-- **A closing flattens its accounts.** Its postings are positive and balance in every
currency; applied, they make the net of every account in scope zero and change no other
key but that of equity; and a second closing finds nothing. -/
theorem closing_flattens {tb : TrialBalance P} {postings : List (Posting P)}
    (h : closingPostings tb accounts kinds equity layer = .ok postings) :
    (∀ p ∈ postings, 0 < p.amount.minor) ∧
    (∀ currency, currencyTotal .debit currency postings = currencyTotal .credit currency postings) ∧
    ∀ tb', tb.applyAll postings = .ok tb' →
      (∀ key, key.layer = layer → InScope accounts kinds key.account → (tb'.getOrZero key).net = .ok (.debit, .zero)) ∧
      (∀ key, ¬ (key.layer = layer ∧ (InScope accounts kinds key.account ∨ key.account = equity)) →
        tb'.get key = tb.get key) ∧
      closingPostings tb' accounts kinds equity layer = .ok [] := by
  obtain ⟨⟨a, ha, hk⟩, s, hrows, hlegs⟩ := closingPostings_eq_ok h
  have hkeys : (tb.entries.entries.map Prod.fst).Nodup := by
    rw [List.Nodup, List.pairwise_map]
    exact tb.entries.increasing.imp fun hlt => ne_of_lt hlt
  have hcloses := closeRows_closes hkeys hrows
  have hleg := equityLegs s.offsets.increasing hlegs
  have hequity := not_inScope_equity ha hk
  refine ⟨hleg.positive hcloses.positive, fun currency => ?_, fun tb' happly => ?_⟩
  · have hnet := hleg.net currency
    have hoffset : ((OrdMap.lookupList currency s.offsets.entries).getD .zero).minor = -currencyNet currency s.postings :=
      hcloses.offset currency
    rw [hoffset, currencyNet] at hnet
    omega
  · have hflat : ∀ key, key.layer = layer → InScope accounts kinds key.account → (tb'.getOrZero key).netMinor = 0 := by
      intro key hlayer hscope
      have hne : key.account ≠ equity := fun he => hequity (he ▸ hscope)
      rw [netMinor_of_applyAll happly, hleg.key key hne]
      cases hget : tb.get key with
      | none =>
        have huntouched : keyNet key s.postings = 0 := by
          refine keyNet_of_not_touches fun htouched => ?_
          obtain ⟨p, hp, hpk⟩ := htouched
          obtain ⟨-, row, hrow, hpr⟩ := hcloses.selected p hp
          have hsome : tb.get row.1 = some row.2 := OrdMap.mem_entries.1 hrow
          rw [← hpr, hpk, hget] at hsome
          cases hsome
        rw [huntouched, TrialBalance.getOrZero, hget]
        rfl
      | some b =>
        have hrow : keyNet key s.postings = -b.netMinor :=
          hcloses.flat (key, b) (OrdMap.mem_entries.2 hget) ⟨hlayer, hne, hscope⟩
        rw [hrow, TrialBalance.getOrZero, hget, Option.getD_some]
        omega
    refine ⟨fun key hl hs => Balance.net_of_flat (hflat key hl hs), fun key hkey => ?_, ?_⟩
    · refine (TrialBalance.get_of_applyAll happly key).2.2 fun htouched => hkey ?_
      obtain ⟨p, hp, hpk⟩ := htouched
      rcases hleg.mem p hp with hp | ⟨hacc, hlayer⟩
      · obtain ⟨hs, -⟩ := hcloses.selected p hp
        rw [hpk] at hs
        exact ⟨hs.1, .inl hs.2.2⟩
      · rw [← hpk]
        exact ⟨hlayer, .inr hacc⟩
    · have hagain : tb'.entries.entries.foldlM (closeRow accounts kinds equity layer) ⟨.empty, []⟩ =
          .ok (⟨.empty, []⟩ : ClosingState P) := foldlM_closeRow_flat fun row hrow hsel => by
        have hget : tb'.get row.1 = some row.2 := OrdMap.mem_entries.1 hrow
        have hzero := hflat row.1 hsel.1 hsel.2.2
        rwa [TrialBalance.getOrZero, hget] at hzero
      unfold closingPostings
      rw [ha]
      simp only
      rw [if_neg (by rw [hk]; decide), hagain]
      rfl

/-! ## The sales of a year -/

def retained : Account := { Account.new ⟨["Equity", "Retained"], rfl⟩ sales.openedOn with kind := some .equity }

/-- The sales account, as income, and the account that takes the profit. -/
def incomeAndEquity : AccountRegistry :=
  ([{ sales with kind := some .income }, retained].foldlM
    (fun (r : AccountRegistry) (a : Account) => (r.register a).map Prod.snd) AccountRegistry.new).toOption.getD .new

def incomeId : AccountId := .ofPosition 0

def equityId : AccountId := .ofPosition 1

/-- Ten euro of sales. -/
def salesOfYear : TrialBalance cents :=
  (TrialBalance.new.apply (.credit incomeId tenEuro .eur)).toOption.getD .new

theorem salesOfYear_closes : ∃ postings : List (Posting cents),
    closingPostings salesOfYear incomeAndEquity [.income] equityId .settled = .ok postings ∧ postings ≠ [] ∧
    ∀ tb', salesOfYear.applyAll postings = .ok tb' →
      closingPostings tb' incomeAndEquity [.income] equityId .settled = .ok [] := by
  have hclose : closingPostings salesOfYear incomeAndEquity [.income] equityId .settled =
      .ok [.debit incomeId tenEuro .eur, .credit equityId tenEuro .eur] := toOption_eq_some.1 (by decide)
  obtain ⟨-, -, happly⟩ := closing_flattens hclose
  exact ⟨_, hclose, by simp, fun tb' h => (happly tb' h).2.2⟩

end DoubleEntry.L3
