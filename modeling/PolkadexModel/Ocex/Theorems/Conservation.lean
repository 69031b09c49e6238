import PolkadexModel.Ocex.Theorems.Postings

open List

namespace Ocex

variable {Acc Sign : Type}

namespace Order

variable (o : Order Acc Sign)

def creditAsset : AssetId :=
  match o.side with
  | .ask => o.pair.quote
  | .bid => o.pair.base

def debitAsset : AssetId :=
  match o.side with
  | .ask => o.pair.base
  | .bid => o.pair.quote

-- The amounts for a trade of an amount of the base asset, worth a volume of the quote asset.
def creditAmount {α : Type} (amount volume : α) : α :=
  match o.side with
  | .ask => volume
  | .bid => amount

def debitAmount {α : Type} (amount volume : α) : α :=
  match o.side with
  | .ask => amount
  | .bid => volume

theorem creditAmount_map {α β : Type} (f : α → β) (amount volume : α) :
    f (o.creditAmount amount volume) = o.creditAmount (f amount) (f volume) := by
  cases h : o.side <;> simp [creditAmount, h]

theorem debitAmount_map {α β : Type} (f : α → β) (amount volume : α) :
    f (o.debitAmount amount volume) = o.debitAmount (f amount) (f volume) := by
  cases h : o.side <;> simp [debitAmount, h]

theorem creditAmount_add_debitAmount (amount volume : ℚ) :
    o.creditAmount amount volume + o.debitAmount amount volume = amount + volume := by
  cases h : o.side <;> simp [creditAmount, debitAmount, h, add_comm]

theorem pair_of_verifyConfig [Decimal.Arith]
    (h : o.verifyConfig config = .ok true) : o.pair = config.pair := by
  have hsame : o.pair.base = config.baseAsset ∧ o.pair.quote = config.quoteAsset := by
    cases ht : o.orderType <;> cases hs : o.side <;> simp only [verifyConfig, ht, hs] at h <;>
      split_ifs at h with hc
    all_goals first | exact hc | exact hc.1 | simp at h
  cases hp : o.pair
  simp_all [TradingPairConfig.pair]

end Order

section Conservation

variable [DecidableEq Acc] [PalletAccounts Acc] [Decimal.Arith]

open OffchainState

namespace Trade

def volumeRat (t : Trade Acc Sign) : ℚ :=
  t.price.toRat * t.amount.toRat

def creditRat (t : Trade Acc Sign) (maker : Bool) : ℚ :=
  (t.order maker).creditAmount t.amount.toRat t.volumeRat

def debitRat (t : Trade Acc Sign) (maker : Bool) : ℚ :=
  (t.order maker).debitAmount t.amount.toRat t.volumeRat

def fraction (makerFees takerFees : FeeConfig) (maker : Bool) : Decimal :=
  if maker then makerFees.makerFraction else takerFees.takerFraction

def postingsOf (t : Trade Acc Sign) (volume : Decimal) (maker : Bool)
    (fraction : Decimal) : List (Posting Acc) :=
  let o := t.order maker
  let credit := o.creditAmount t.amount volume
  let fees := credit.saturatingMul fraction
  [⟨o.mainAccount, o.creditAsset, credit.saturatingSub fees, true⟩,
   ⟨PalletAccounts.potAccount, o.creditAsset, fees, true⟩,
   ⟨o.mainAccount, o.debitAsset, o.debitAmount t.amount volume, false⟩]

def postings (t : Trade Acc Sign) (volume : Decimal) (makerFees takerFees : FeeConfig) :
    List (Posting Acc) :=
  t.postingsOf volume true (fraction makerFees takerFees true) ++
  t.postingsOf volume false (fraction makerFees takerFees false)

-- What the six steps of a trade cut off from the balances of an asset.
def truncationLoss (s : OffchainState Acc) (t : Trade Acc Sign)
    (makerFees takerFees : FeeConfig) (asset : AssetId) : ℚ :=
  t.volume.toOption.elim 0 fun v => s.lossAlong asset (t.postings v makerFees takerFees)

variable {t : Trade Acc Sign} {s s' : OffchainState Acc} {volume : Decimal}
  {config : TradingPairConfig} {makerFees takerFees : FeeConfig} {asset : AssetId}

omit [DecidableEq Acc] [PalletAccounts Acc] in
theorem credit_eq (h : t.volume = .ok volume) (maker : Bool) :
    t.credit maker = .ok (⟨(t.order maker).mainAccount, (t.order maker).creditAsset⟩,
      (t.order maker).creditAmount t.amount volume) := by
  cases hs : (t.order maker).side <;>
    simp [credit, hs, h, Order.creditAsset, Order.creditAmount, bind, Except.bind, pure, Except.pure]

omit [DecidableEq Acc] [PalletAccounts Acc] in
theorem debit_eq (h : t.volume = .ok volume) (maker : Bool) :
    t.debit maker = .ok (⟨(t.order maker).mainAccount, (t.order maker).debitAsset⟩,
      (t.order maker).debitAmount t.amount volume) := by
  cases hs : (t.order maker).side <;>
    simp [debit, hs, h, Order.debitAsset, Order.debitAmount, bind, Except.bind, pure, Except.pure]

theorem volume_of_settle {maker : Bool} {fraction : Decimal} (h : s.settle t maker fraction = .ok s') :
    ∃ volume, t.volume = .ok volume := by
  cases hv : t.volume with
  | ok v => exact ⟨v, rfl⟩
  | error e =>
    simp only [settle, bind_eq_ok] at h
    obtain ⟨c, hc, d, hd, _⟩ := h
    cases hs : (t.order maker).side
    case ask => simp [credit, hs, hv, bind, Except.bind] at hc
    case bid => simp [debit, hs, hv, bind, Except.bind] at hd

theorem settle_eq_postAll (h : t.volume = .ok volume) (maker : Bool) (fraction : Decimal) :
    s.settle t maker fraction = s.postAll (t.postingsOf volume maker fraction) := by
  simp only [settle, postingsOf, postAll, foldlM_cons, foldlM_nil, post, if_true,
    credit_eq h, debit_eq h, bind, Except.bind, Bool.false_eq_true, if_false]
  split <;> rfl

theorem postAll_of_processTrade [Verify Acc Sign]
    (h : s.processTrade t config makerFees takerFees = .ok s') :
    t.verify config = .ok true ∧ ∃ volume, t.volume = .ok volume ∧
      s.postAll (t.postings volume makerFees takerFees) = .ok s' := by
  simp only [processTrade, bind_eq_ok] at h
  obtain ⟨b, hv, h⟩ := h
  cases b
  case false => simp at h
  case true =>
    simp only [if_true, bind_eq_ok] at h
    obtain ⟨u, hu, h⟩ := h
    obtain ⟨volume, hvol⟩ := volume_of_settle hu
    refine ⟨hv, volume, hvol, Except.foldlM_append_eq_ok.mpr ⟨u, ?_, ?_⟩⟩
    · exact (settle_eq_postAll hvol ..).symm.trans hu
    · exact (settle_eq_postAll hvol ..).symm.trans h

-- A balance is a multiple of `10 ^ -k`, and small enough that the trade can be added to it.
structure Holding (k : ℕ) (t : Trade Acc Sign) (balance : ℚ) : Prop where
  nonneg : 0 ≤ balance
  onGrid : Decimal.OnGrid k balance
  bound : (balance + 2 * (t.amount.toRat + t.volumeRat)) * 10 ^ k < 2 ^ 96

-- The numbers of a trade have the signs that they should have, and can be computed exactly with `k`
-- decimal places.
structure Regular (k : ℕ) (s : OffchainState Acc) (t : Trade Acc Sign)
    (makerFees takerFees : FeeConfig) : Prop where
  nine_le : 9 ≤ k
  le : k ≤ 28
  price_pos : 0 < t.price.toRat
  amount_pos : 0 < t.amount.toRat
  base_ne_quote : t.maker.pair.base ≠ t.maker.pair.quote
  fraction_nonneg : ∀ maker, 0 ≤ (fraction makerFees takerFees maker).toRat
  fraction_le : ∀ maker, (fraction makerFees takerFees maker).toRat ≤ 1
  amount_onGrid : Decimal.OnGrid k t.amount.toRat
  volume_onGrid : Decimal.OnGrid k t.volumeRat
  fees_onGrid : ∀ maker,
    Decimal.OnGrid k (t.creditRat maker * (fraction makerFees takerFees maker).toRat)
  holding : ∀ maker, ∀ account ∈ [(t.order maker).mainAccount, PalletAccounts.potAccount],
    ∀ asset ∈ [(t.order maker).creditAsset, (t.order maker).debitAsset],
      Holding k t (s.getBalance account asset).toRat

omit [DecidableEq Acc] [PalletAccounts Acc] [Decimal.Arith] in
theorem creditRat_add_debitRat (t : Trade Acc Sign) (maker : Bool) :
    t.creditRat maker + t.debitRat maker = t.amount.toRat + t.volumeRat :=
  (t.order maker).creditAmount_add_debitAmount ..

namespace Regular

variable {k : ℕ} (h : Regular k s t makerFees takerFees)

include h

omit [DecidableEq Acc] [Decimal.Arith]

theorem volume_pos : 0 < t.volumeRat :=
  mul_pos h.price_pos h.amount_pos

theorem credit_pos (maker : Bool) : 0 < t.creditRat maker := by
  have := h.amount_pos
  have := h.volume_pos
  cases hs : (t.order maker).side <;> simpa [creditRat, Order.creditAmount, hs]

theorem debit_pos (maker : Bool) : 0 < t.debitRat maker := by
  have := h.amount_pos
  have := h.volume_pos
  cases hs : (t.order maker).side <;> simpa [debitRat, Order.debitAmount, hs]

theorem credit_onGrid (maker : Bool) : Decimal.OnGrid k (t.creditRat maker) := by
  have := h.amount_onGrid
  have := h.volume_onGrid
  cases hs : (t.order maker).side <;> simpa [creditRat, Order.creditAmount, hs]

theorem debit_onGrid (maker : Bool) : Decimal.OnGrid k (t.debitRat maker) := by
  have := h.amount_onGrid
  have := h.volume_onGrid
  cases hs : (t.order maker).side <;> simpa [debitRat, Order.debitAmount, hs]

theorem credit_le (maker : Bool) : t.creditRat maker ≤ t.amount.toRat + t.volumeRat := by
  linarith [h.debit_pos maker, t.creditRat_add_debitRat maker]

theorem fees_nonneg (maker : Bool) :
    0 ≤ t.creditRat maker * (fraction makerFees takerFees maker).toRat :=
  mul_nonneg (h.credit_pos maker).le (h.fraction_nonneg maker)

theorem fees_le (maker : Bool) :
    t.creditRat maker * (fraction makerFees takerFees maker).toRat ≤ t.creditRat maker :=
  mul_le_of_le_one_right (h.credit_pos maker).le (h.fraction_le maker)

theorem exists_decimal (hg : Decimal.OnGrid k q) (hn : 0 ≤ q)
    (hle : q ≤ t.amount.toRat + t.volumeRat) : ∃ z : Decimal, z.toRat = q := by
  have hh := h.holding true (t.order true).mainAccount (by simp) (t.order true).creditAsset (by simp)
  refine hg.exists_decimal h.le ?_
  rw [abs_of_nonneg hn]
  refine lt_of_le_of_lt (mul_le_mul_of_nonneg_right ?_ (by positivity)) hh.bound
  linarith [hh.nonneg, h.amount_pos, h.volume_pos]

variable [Decimal.Arith] (hv : t.volume = .ok volume)

include hv

theorem toRat_volume : volume.toRat = t.volumeRat := by
  obtain ⟨z, hz⟩ := h.exists_decimal h.volume_onGrid h.volume_pos.le (by linarith [h.amount_pos])
  obtain ⟨w, hw, he⟩ := Decimal.Arith.mul_exact hz
  rw [Option.mem_def] at hw
  simp only [Trade.volume, hw, Except.ok.injEq] at hv
  rw [← hv, he, hz]

theorem toRat_credit (maker : Bool) :
    ((t.order maker).creditAmount t.amount volume).toRat = t.creditRat maker := by
  rw [Order.creditAmount_map _ Decimal.toRat, h.toRat_volume hv, creditRat]

theorem toRat_debit (maker : Bool) :
    ((t.order maker).debitAmount t.amount volume).toRat = t.debitRat maker := by
  rw [Order.debitAmount_map _ Decimal.toRat, h.toRat_volume hv, debitRat]

theorem toRat_fees (maker : Bool) :
    (((t.order maker).creditAmount t.amount volume).saturatingMul
      (fraction makerFees takerFees maker)).toRat =
    t.creditRat maker * (fraction makerFees takerFees maker).toRat := by
  have hle := (h.fees_le maker).trans (h.credit_le maker)
  obtain ⟨z, hz⟩ := h.exists_decimal (h.fees_onGrid maker) (h.fees_nonneg maker) hle
  rw [← h.toRat_credit hv] at hz ⊢
  exact Decimal.toRat_saturatingMul hz

theorem toRat_rest (maker : Bool) :
    (((t.order maker).creditAmount t.amount volume).saturatingSub
      (((t.order maker).creditAmount t.amount volume).saturatingMul
        (fraction makerFees takerFees maker))).toRat =
    t.creditRat maker - t.creditRat maker * (fraction makerFees takerFees maker).toRat := by
  have hgrid := (h.credit_onGrid maker).sub (h.fees_onGrid maker)
  have hnonneg := sub_nonneg.mpr (h.fees_le maker)
  have hle := (sub_le_self _ (h.fees_nonneg maker)).trans (h.credit_le maker)
  obtain ⟨z, hz⟩ := h.exists_decimal hgrid hnonneg hle
  rw [← h.toRat_fees hv, ← h.toRat_credit hv] at hz ⊢
  exact Decimal.toRat_saturatingSub hz

theorem amounts_postingsOf (maker : Bool) :
    Posting.amounts (t.postingsOf volume maker (fraction makerFees takerFees maker)) =
      t.amount.toRat + t.volumeRat := by
  simp only [Posting.amounts, postingsOf, map_cons, map_nil, sum_cons, sum_nil,
    h.toRat_rest hv, h.toRat_fees hv, h.toRat_debit hv]
  linarith [t.creditRat_add_debitRat maker]

theorem net_postingsOf (maker : Bool) :
    Posting.net asset (t.postingsOf volume maker (fraction makerFees takerFees maker)) =
      (if (t.order maker).creditAsset = asset then t.creditRat maker else 0) -
      (if (t.order maker).debitAsset = asset then t.debitRat maker else 0) := by
  simp only [Posting.net, postingsOf, map_cons, map_nil, sum_cons, sum_nil,
    Posting.change, if_true, Bool.false_eq_true, if_false, h.toRat_rest hv, h.toRat_fees hv,
    h.toRat_debit hv]
  split_ifs <;> ring

theorem mem_postingsOf {maker : Bool}
    (hp : p ∈ t.postingsOf volume maker (fraction makerFees takerFees maker)) :
    0 ≤ p.amount.toRat ∧ Decimal.OnGrid k p.amount.toRat ∧ Holding k t (p.balance s) := by
  simp only [postingsOf, mem_cons, not_mem_nil, or_false] at hp
  match hp with
  | .inl hp =>
    subst hp
    rw [h.toRat_rest hv]
    exact ⟨sub_nonneg.mpr (h.fees_le maker), (h.credit_onGrid maker).sub (h.fees_onGrid maker),
      h.holding maker _ (by simp) _ (by simp)⟩
  | .inr (.inl hp) =>
    subst hp
    rw [h.toRat_fees hv]
    exact ⟨h.fees_nonneg maker, h.fees_onGrid maker, h.holding maker _ (by simp) _ (by simp)⟩
  | .inr (.inr hp) =>
    subst hp
    rw [h.toRat_debit hv]
    exact ⟨(h.debit_pos maker).le, h.debit_onGrid maker, h.holding maker _ (by simp) _ (by simp)⟩

theorem fits : Fits k s (t.postings volume makerFees takerFees) := by
  have hmem : ∀ p ∈ t.postings volume makerFees takerFees,
      0 ≤ p.amount.toRat ∧ Decimal.OnGrid k p.amount.toRat ∧ Holding k t (p.balance s) := by
    intro p hp
    cases mem_append.mp hp with
    | inl hp => exact h.mem_postingsOf hv hp
    | inr hp => exact h.mem_postingsOf hv hp
  have hamounts : Posting.amounts (t.postings volume makerFees takerFees) =
      2 * (t.amount.toRat + t.volumeRat) := by
    have h₁ := h.amounts_postingsOf hv true
    have h₂ := h.amounts_postingsOf hv false
    simp only [Posting.amounts, postings, map_append, sum_append] at h₁ h₂ ⊢
    linarith
  exact {
    nine_le := h.nine_le
    le := h.le
    amount_nonneg p hp := (hmem p hp).1
    amount_onGrid p hp := (hmem p hp).2.1
    balance_nonneg p hp := (hmem p hp).2.2.nonneg
    balance_onGrid p hp := (hmem p hp).2.2.onGrid
    bound p hp := hamounts ▸ (hmem p hp).2.2.bound }

theorem net_postings : Posting.net asset (t.postings volume makerFees takerFees) =
    (if t.maker.creditAsset = asset then t.creditRat true else 0) -
    (if t.maker.debitAsset = asset then t.debitRat true else 0) +
    ((if t.taker.creditAsset = asset then t.creditRat false else 0) -
    (if t.taker.debitAsset = asset then t.debitRat false else 0)) := by
  rw [postings, Posting.net, map_append, sum_append, ← Posting.net, ← Posting.net,
    h.net_postingsOf hv, h.net_postingsOf hv]
  rfl

end Regular

omit [DecidableEq Acc] in
-- A trade between an ask and a bid only moves amounts between accounts.
theorem Regular.net_eq_zero (h : Regular k s t makerFees takerFees)
    (hv : t.volume = .ok volume) (hpair : t.maker.pair = t.taker.pair) (hside : t.maker.side ≠ t.taker.side) :
    Posting.net asset (t.postings volume makerFees takerFees) = 0 := by
  rw [h.net_postings hv]
  cases hm : t.maker.side <;> cases ht : t.taker.side
  case ask.ask | bid.bid => simp [hm, ht] at hside
  all_goals
    simp [Order.creditAsset, Order.debitAsset, creditRat, debitRat, order, Order.creditAmount,
      Order.debitAmount, hm, ht, hpair]

omit [DecidableEq Acc] in
-- A trade between two orders of the same side takes the same asset from both.
theorem Regular.net_neg (h : Regular k s t makerFees takerFees)
    (hv : t.volume = .ok volume) (hpair : t.maker.pair = t.taker.pair) (hside : t.maker.side = t.taker.side) :
    Posting.net t.maker.debitAsset (t.postings volume makerFees takerFees) < 0 := by
  have hcredit : t.maker.creditAsset = t.taker.creditAsset := by
    simp [Order.creditAsset, hside, hpair]
  have hdebit : t.maker.debitAsset = t.taker.debitAsset := by
    simp [Order.debitAsset, hside, hpair]
  have hne : t.maker.creditAsset ≠ t.maker.debitAsset := by
    have := h.base_ne_quote
    cases hs : t.maker.side
    case ask => simpa [Order.creditAsset, Order.debitAsset, hs] using this.symm
    case bid => simpa [Order.creditAsset, Order.debitAsset, hs] using this
  have hmaker := h.debit_pos true
  have htaker := h.debit_pos false
  rw [h.net_postings hv, ← hcredit, ← hdebit, if_neg hne, if_neg hne, if_pos rfl, if_pos rfl]
  linarith

-- For each asset the total does not grow, and it only shrinks by what is cut off.
def Conserves (s s' : OffchainState Acc) (t : Trade Acc Sign)
    (makerFees takerFees : FeeConfig) : Prop :=
  ∀ asset, s'.total asset ≤ s.total asset ∧
    s.total asset - s'.total asset ≤ t.truncationLoss s makerFees takerFees asset

theorem conserves_iff_net (h : Regular k s t makerFees takerFees)
    (hv : t.volume = .ok volume) (hp : s.postAll (t.postings volume makerFees takerFees) = .ok s') :
    Conserves s s' t makerFees takerFees ↔
      ∀ asset, 0 ≤ Posting.net asset (t.postings volume makerFees takerFees) ∧
        Posting.net asset (t.postings volume makerFees takerFees) ≤
          s.lossAlong asset (t.postings volume makerFees takerFees) := by
  refine forall_congr' fun asset => ?_
  have htotal : s'.total asset = _ := (h.fits hv).total hp
  simp only [truncationLoss, hv, Except.toOption, Option.elim_some, htotal]
  constructor <;> rintro ⟨h₁, h₂⟩ <;> constructor <;> linarith

variable [Verify Acc Sign]

omit [DecidableEq Acc] [PalletAccounts Acc] in
theorem pair_eq_of_verify (h : t.verify config = .ok true) : t.maker.pair = t.taker.pair := by
  simp only [verify] at h
  split_ifs at h
  · obtain ⟨b, hm, ht⟩ := bind_eq_ok.mp h
    cases b
    case false => simp [pure, Except.pure] at ht
    case true => rw [Order.pair_of_verifyConfig _ hm, Order.pair_of_verifyConfig _ ht]
  · simp [pure, Except.pure] at h

-- No check of a trade compares the sides of its two orders. A trade conserves the assets exactly if
-- one of the orders is an ask and the other one is a bid.
theorem conserves_iff_opposite_sides {k : ℕ}
    (h : s.processTrade t config makerFees takerFees = .ok s')
    (hr : Regular k s t makerFees takerFees) :
    Conserves s s' t makerFees takerFees ↔ t.maker.side ≠ t.taker.side := by
  obtain ⟨hverify, volume, hv, hp⟩ := postAll_of_processTrade h
  have hpair := pair_eq_of_verify hverify
  rw [conserves_iff_net hr hv hp]
  constructor
  · intro hnet hside
    exact absurd (hnet t.maker.debitAsset).1 (not_le.mpr (hr.net_neg hv hpair hside))
  · intro hside asset
    rw [hr.net_eq_zero hv hpair hside]
    exact ⟨le_rfl, s.lossAlong_nonneg asset _⟩

end Trade

end Conservation

namespace Mock

attribute [local instance] Decimal.HalfEven.arith

def pair : TradingPair where
  base := .asset 1
  quote := .polkadex

def order (account : Account) (side : OrderSide) : Order Account Sig where
  id := 0
  clientOrderId := 0
  user := account
  mainAccount := account
  pair := pair
  side := side
  orderType := .limit
  qty := 1
  price := 1
  quoteOrderQty := 0
  timestamp := 0
  signature := (account, .order ⟨0, account, account, pair, side, .limit, 0, 1, 1, 0⟩)

def trade (makerSide takerSide : OrderSide) : Trade Account Sig where
  maker := order 2 makerSide
  taker := order 3 takerSide
  price := 1
  amount := 1

def funded : OffchainState Account :=
  OffchainState.empty
    |>.setEntry 2 pair.quote 1
    |>.setEntry 3 pair.quote 1
    |>.setEntry 2 pair.base 1

theorem funded_regular : Trade.Regular 9 funded (trade .ask .bid) {} {} where
  nine_le := by decide
  le := by decide
  price_pos := by decide +kernel
  amount_pos := by decide +kernel
  base_ne_quote := by decide
  fraction_nonneg maker := by cases maker <;> decide +kernel
  fraction_le maker := by cases maker <;> decide +kernel
  amount_onGrid := Decimal.onGrid_toRat (by decide)
  volume_onGrid := ⟨10 ^ 9, by decide +kernel⟩
  fees_onGrid maker := ⟨10 ^ 6, by cases maker <;> decide +kernel⟩
  holding maker account ha asset hx := by
    have hb : funded.getBalance account asset = 0 ∨ funded.getBalance account asset = 1 := by
      revert account asset
      cases maker <;> decide +kernel
    cases hb with
    | inl hb => rw [hb]; exact ⟨by decide +kernel, Decimal.onGrid_toRat (by decide), by decide +kernel⟩
    | inr hb => rw [hb]; exact ⟨by decide +kernel, Decimal.onGrid_toRat (by decide), by decide +kernel⟩

theorem ask_meets_bid : ∃ s',
    funded.processTrade (trade .ask .bid) (.ofPair pair.base pair.quote) {} {} = .ok s' ∧
    Trade.Conserves funded s' (trade .ask .bid) {} {} := by
  obtain ⟨s', h⟩ : ∃ s', funded.processTrade (trade .ask .bid) (.ofPair pair.base pair.quote) {} {} =
      .ok s' := ⟨_, rfl⟩
  exact ⟨s', h, (Trade.conserves_iff_opposite_sides h funded_regular).mpr (by decide)⟩

-- Two bids are settled against each other: both parties are credited with a unit of the base asset,
-- and nobody gives one.
theorem bid_meets_bid : ∃ s',
    funded.processTrade (trade .bid .bid) (.ofPair pair.base pair.quote) {} {} = .ok s' ∧
    funded.total pair.base < s'.total pair.base := by
  refine ⟨_, rfl, ?_⟩
  rw [OffchainState.total, OffchainState.total, finsum_eq_sum_of_fintype, finsum_eq_sum_of_fintype]
  decide +kernel

end Mock

end Ocex
