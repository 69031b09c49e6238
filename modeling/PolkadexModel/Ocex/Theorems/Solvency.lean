import PolkadexModel.Ocex.Theorems.Amounts
import PolkadexModel.Ocex.Theorems.CatchUp
import PolkadexModel.Ocex.Theorems.Debits
import PolkadexModel.Ocex.Theorems.Invariants

open Decimal

namespace Ocex

open Decimal (nonneg_iff FaithfulArith)

variable {Acc Auth AuthSign Sign W : Type} [Ord Acc] {cfg : Config}

def OffchainState.Solvent (s : OffchainState Acc) : Prop :=
  ∀ account asset, 0 ≤ s.getBalance account asset

-- The parts of a trade are not negative.
structure Trade.Nonneg (t : Trade Acc Sign) : Prop where
  price : 0 ≤ t.price
  amount : 0 ≤ t.amount

section Generic

variable [FaithfulArith]

section Amounts

variable {x : Decimal}

omit [FaithfulArith] in
theorem nonneg_roundingOff (h : 0 ≤ x.toRat) : 0 ≤ Order.roundingOff x := by
  rw [nonneg_iff, Order.roundingOff, toRat_truncate 9 h]
  exact truncRat_nonneg h

omit [FaithfulArith] in
theorem le_roundingOff {y : Decimal} (hy : Decimal.OnGrid 9 y.toRat) (h₀ : 0 ≤ y.toRat)
    (h : y.toRat ≤ x.toRat) : y.toRat ≤ (Order.roundingOff x).toRat := by
  obtain ⟨m, hm⟩ := hy
  rw [Order.roundingOff, toRat_truncate 9 (h₀.trans h), truncRat,
    le_div_iff₀ (by positivity), hm, div_mul_cancel₀ _ (by positivity)]
  refine Int.cast_le.mpr (Int.le_floor.mpr ?_)
  rwa [hm, div_le_iff₀ (by positivity)] at h

theorem nonneg_of_deposited (h : Deposited x) : 0 ≤ x := by
  rcases h with ⟨_, h⟩ | ⟨_, h⟩
  · exact nonneg_of_inUnits h
  · exact nonneg_of_inPlanck h

end Amounts

omit [Ord Acc] in
theorem OffchainState.le_addBalance_self [DecidableEq Acc] {s : OffchainState Acc}
 {x y : Decimal} (hs : 0 ≤ s.getBalance account asset)
    (hy : Decimal.OnGrid 9 y.toRat) (h₀ : 0 ≤ y.toRat) (hx : y.toRat ≤ x.toRat) :
    y.toRat ≤ ((s.addBalance account asset x).getBalance account asset).toRat := by
  rw [addBalance_eq, getBalance, entry_setEntry_self, Option.getD_some, added]
  cases he : s.entry account asset with
  | none => exact hx
  | some total =>
    rw [getBalance_eq he, nonneg_iff] at hs
    exact le_roundingOff hy h₀ ((faithful_saturatingAdd total x).ge y (by linarith))

namespace OffchainState.Solvent

variable [DecidableEq Acc] {s s' : OffchainState Acc} {account : Acc}
  {asset : AssetId} {amount deducted : Decimal}

omit [FaithfulArith] [DecidableEq Acc] [Ord Acc] in
theorem empty : (OffchainState.empty : OffchainState Acc).Solvent :=
  fun _ _ => nonneg_iff.mpr (by simp [getBalance, entry, OffchainState.empty, Store.empty])

omit [FaithfulArith] [Ord Acc] in
theorem setEntry (h : s.Solvent) (ha : 0 ≤ amount) : (s.setEntry account asset amount).Solvent := by
  intro account' asset'
  rw [getBalance, entry_setEntry]
  split_ifs
  · exact ha
  · exact h account' asset'

omit [Ord Acc] in
theorem addBalance (h : s.Solvent) (ha : 0 ≤ amount) : (s.addBalance account asset amount).Solvent := by
  rw [addBalance_eq]
  refine h.setEntry ?_
  rw [added]
  cases he : s.entry account asset with
  | none => exact ha
  | some total =>
    have ht := h account asset
    rw [getBalance_eq he, nonneg_iff] at ht
    have hsum := add_nonneg ht (nonneg_iff.mp ha)
    exact nonneg_roundingOff ((faithful_saturatingAdd total amount).nonneg hsum)

omit [Ord Acc] [DecidableEq Acc] in
theorem deducted_le
    (h : deductible balance amount isWithdrawal = .ok deducted) : deducted.toRat ≤ balance.toRat := by
  cases isWithdrawal with
  | true => exact toRat_deductible h ▸ min_le_left ..
  | false =>
    obtain ⟨hd, hle⟩ := deductible_eq_ok.mp h
    exact hd ▸ le_iff.mp hle

omit [Ord Acc] in
theorem subBalance (h : s.Solvent)
    (hs : s.subBalance account asset amount isWithdrawal = .ok (s', deducted)) : s'.Solvent := by
  obtain ⟨balance, _, hd, hs⟩ := subBalance_eq_ok.mp hs
  rw [hs]
  refine h.setEntry (nonneg_roundingOff ?_)
  have hle := deducted_le hd
  exact (faithful_saturatingSub balance deducted).nonneg (sub_nonneg.mpr hle)

omit [Ord Acc] in
theorem postAll (h : s.Solvent)
    (hps : ∀ p ∈ ps, p.isCredit → 0 ≤ p.amount) (hs : s.postAll ps = .ok s') : s'.Solvent := by
  refine Except.foldlM_invariant hs h fun p hp s s' h hs => ?_
  simp only [post] at hs
  split_ifs at hs with hc
  · exact Except.ok.inj hs ▸ h.addBalance (hps p hp hc)
  · simp only [bind_eq_ok, pure_eq_ok, Prod.exists] at hs
    obtain ⟨_, _, hsub, ht⟩ := hs
    exact ht ▸ h.subBalance hsub

end OffchainState.Solvent

-- The fees are a part of the credit.
theorem credit_nonneg {credit fraction : Decimal} (hc : 0 ≤ credit) (hf : 0 ≤ fraction)
    (hf' : fraction ≤ 1) : 0 ≤ credit.saturatingMul fraction ∧
      0 ≤ credit.saturatingSub (credit.saturatingMul fraction) := by
  rw [nonneg_iff] at hc hf
  rw [le_iff, toRat_one] at hf'
  have hfees := faithful_saturatingMul credit fraction
  have hle : (credit.saturatingMul fraction).toRat ≤ credit.toRat :=
    hfees.le credit (mul_le_of_le_one_right hc hf')
  refine ⟨nonneg_iff.mpr (hfees.nonneg (mul_nonneg hc hf)), nonneg_iff.mpr ?_⟩
  exact (faithful_saturatingSub credit _).nonneg (sub_nonneg.mpr hle)

namespace Trade

variable [PalletAccounts Acc] {t : Trade Acc Sign} {volume : Decimal}

omit [Ord Acc] [PalletAccounts Acc] in
theorem Nonneg.volume_nonneg (h : t.Nonneg) (hv : t.volume = .ok volume) : 0 ≤ volume := by
  simp only [Trade.volume] at hv
  cases hm : Decimal.Arith.checkedMul t.price t.amount with
  | none => simp [hm] at hv
  | some v =>
    simp only [hm, Except.ok.injEq] at hv
    subst hv
    have hf := (FaithfulArith.mul_rounds t.price t.amount).faithful v hm
    exact nonneg_iff.mpr (hf.nonneg (mul_nonneg (nonneg_iff.mp h.price) (nonneg_iff.mp h.amount)))

omit [Ord Acc] in
theorem Nonneg.postings (h : t.Nonneg) (hv : t.volume = .ok volume) :
    ∀ p ∈ t.postings volume {} {}, p.isCredit → 0 ≤ p.amount := by
  have hof (maker : Bool) : ∀ p ∈ t.postingsOf volume maker (fraction {} {} maker),
      p.isCredit → 0 ≤ p.amount := by
    have hc : 0 ≤ (t.order maker).creditAmount t.amount volume := by
      rw [Order.creditAmount]
      cases (t.order maker).side with
      | ask => exact h.volume_nonneg hv
      | bid => exact h.amount
    have hf₀ : 0 ≤ fraction {} {} maker := by cases maker <;> decide
    have hf₁ : fraction {} {} maker ≤ 1 := by cases maker <;> decide
    have hf := credit_nonneg hc hf₀ hf₁
    simp [postingsOf, hf.1, hf.2]
  intro p hp
  cases List.mem_append.mp hp with
  | inl hp => exact hof true p hp
  | inr hp => exact hof false p hp

end Trade

variable [DecidableEq Acc] [PalletAccounts Acc] [Verify Acc Sign]

theorem preserves_solvent {chain : State Acc Auth W cfg}
    {ts : List (Trade Acc Sign)} (ht : ∀ t ∈ ts, t.Nonneg) :
    Preserves chain ts OffchainState.Solvent where
  deposit _ hd h := h.addBalance (nonneg_of_deposited hd)
  debit hs h := h.subBalance hs
  epoch h := h
  trade hmem hs h := by
    obtain ⟨_, _, _, hv, hp⟩ := settleTrade_eq_ok hs
    exact h.postAll ((ht _ hmem).postings hv) hp

variable [FromText] [Assets Acc W] [CrossChainGadget Acc W]
  [CrowdSourceLiquidityMining Acc W] [Percent]
  [Authority Acc Auth AuthSign]

-- Nobody owes anything as long as no trade has a negative price or a negative amount.
theorem Worker.solvent_of_nonneg_trades {w : Worker Acc} (hw : w.state = .empty)
    {is : List (Input Acc Auth Sign W cfg)}
    (hr : ∀ i ∈ is, i.1.Reachable AuthSign) (ht : ∀ t ∈ w.trades is, t.Nonneg) :
    (Run.run step w is).state.Solvent :=
  preserved_run (hw ▸ .empty) (fun i hi => (hr i hi).sound) fun _ _ => preserves_solvent ht

end Generic

namespace Mock

attribute [local instance] Decimal.HalfEven.faithfulArith percent

def marketCalls : List (Call Account ℕ AuthSig) :=
  [.setExchangeState true, .allowlistToken pair.base, .allowlistToken pair.quote,
    .registerTradingPair pair.base pair.quote (10 ^ 4) (10 ^ 18) (10 ^ 6) (10 ^ 9), .nextBlock,
    .deposit 0 2 pair.base unitBalance, .deposit 1 3 pair.quote unitBalance]

def market : State Account ℕ World config :=
  Run.run step (.genesis [] fun _ _ => unitBalance) marketCalls

theorem market_reachable : market.Reachable AuthSig :=
  ⟨_, _, _, rfl⟩

def tradeBatch (amount : Decimal) : UserActionBatch Account Sig where
  actions := [.blockImport 1 (fun _ => none) ∅, .trade [{ trade .ask .bid with amount := amount }]]
  stid := 1
  snapshotId := 1
  signature := (0, .withdrawal ⟨.polkadex, "", 0, none⟩)

theorem trade_of_deposits : (Worker.fresh.trades [(market, tradeBatch 1)]).length = 1 ∧
    (Run.run Worker.step .fresh [(market, tradeBatch 1)]).state.Solvent := by
  have hr : ∀ i ∈ [(market, tradeBatch 1)], i.1.Reachable AuthSig := by simpa using market_reachable
  have ht : Worker.fresh.trades [(market, tradeBatch 1)] = [trade .ask .bid] := rfl
  refine ⟨by rw [ht]; rfl, Worker.solvent_of_nonneg_trades rfl hr ?_⟩
  rw [ht]
  simpa using ⟨by decide, by decide⟩

-- Both parties owe what they should have got.
theorem negative_trade_overdraws : market.Reachable AuthSig ∧
    (Run.run Worker.step .fresh [(market, tradeBatch (negated 1))]).state.getBalance 2 pair.quote < 0 ∧
    (Run.run Worker.step .fresh [(market, tradeBatch (negated 1))]).state.getBalance 3 pair.base < 0 :=
  ⟨market_reachable, by decide +kernel, by decide +kernel⟩

end Mock

end Ocex
