import PolkadexModel.Ocex.Theorems.Amounts
import PolkadexModel.Ocex.Theorems.Queue

-- The configurations of the trading pairs, which the checks of the orders rely on.
namespace Ocex

open Decimal (FaithfulArith)

def TradingPair.reverse (pair : TradingPair) : TradingPair where
  base := pair.quote
  quote := pair.base

structure TradingPairConfig.Valid (config : TradingPairConfig) : Prop where
  priceTick : config.priceTickSize.isZero = false
  qtyStep : config.qtyStepSize.isZero = false
  volume : config.minVolume ≤ config.maxVolume
  basePrecision : config.baseAssetPrecision = config.qtyStepSize.scale
  quotePrecision : config.quoteAssetPrecision = config.priceTickSize.scale

section Runs

variable {Acc Auth AuthSign W : Type} [Ord Acc] {cfg : Config}

namespace State

-- All pairs are valid, and none of them is stored the other way around as well.
structure ValidPairs (s : State Acc Auth W cfg) : Prop where
  valid : ∀ pair config, s.tradingPairs pair = some config → config.Valid
  oneWay : ∀ pair, s.tradingPairs pair ≠ none → s.tradingPairs pair.reverse = none

variable {s s' : State Acc Auth W cfg} {base quote : AssetId}
  {minVolume maxVolume priceTickSize qtyStepSize : ℕ}

theorem ValidPairs.congr (h : s.ValidPairs) (hp : s'.tradingPairs = s.tradingPairs) :
    s'.ValidPairs :=
  ⟨fun pair config hc => h.valid pair config (hp ▸ hc), fun pair hn => by
    rw [hp] at hn ⊢
    exact h.oneWay pair hn⟩

theorem ValidPairs.setPair (h : s.ValidPairs) (hne : base ≠ quote)
    (hr : s.tradingPairs ⟨quote, base⟩ = none) : (s.setPair base quote config).ValidPairs ↔ config.Valid := by
  refine ⟨fun h' => h'.valid ⟨base, quote⟩ config (by simp [State.setPair]), fun hc => ⟨?valid, ?oneWay⟩⟩
  case valid =>
    intro pair config' hs
    by_cases hp : pair = ⟨base, quote⟩
    · simp only [State.setPair, hp, Function.update_self, Option.some.injEq] at hs
      exact hs ▸ hc
    · exact h.valid pair config' (by simpa [State.setPair, hp] using hs)
  case oneWay =>
    intro pair hs
    by_cases hp : pair = ⟨base, quote⟩
    · subst hp
      have hrev : (⟨quote, base⟩ : TradingPair) ≠ ⟨base, quote⟩ :=
        fun he => hne (congrArg TradingPair.base he).symm
      simpa [State.setPair, TradingPair.reverse, hrev] using hr
    · have hs : s.tradingPairs pair ≠ none := by simpa [State.setPair, hp] using hs
      have hrev : pair.reverse ≠ ⟨base, quote⟩ := by
        intro he
        have hb : pair.quote = base := congrArg TradingPair.base he
        have hq : pair.base = quote := congrArg TradingPair.quote he
        exact hs (by rw [← hr, ← hb, ← hq])
      simpa [State.setPair, hrev] using h.oneWay pair hs

section Arith

variable [FaithfulArith]

theorem isZero_of_inUnits (hn : 0 < n) (h : inUnits e n = .ok x) : x.isZero = false := by
  have hx := toRat_of_inUnits h
  rw [Bool.eq_false_iff, ne_eq, Decimal.isZero_iff, hx]
  positivity

theorem le_of_inUnits (hle : m ≤ n) (hx : inUnits e m = .ok x) (hy : inUnits e n = .ok y) : x ≤ y := by
  have hle : (m : ℚ) ≤ n := by exact_mod_cast hle
  rw [Decimal.le_iff, toRat_of_inUnits hx, toRat_of_inUnits hy]
  gcongr

-- What a registration and an update have in common.
structure Configured (minVolume maxVolume priceTickSize qtyStepSize : ℕ) (config : TradingPairConfig) :
    Prop where
  validated : validateTradingPairConfig minVolume maxVolume priceTickSize qtyStepSize = .ok ()
  minVolume : inUnits .tradingPairConfigUnderflow minVolume = .ok config.minVolume
  maxVolume : inUnits .tradingPairConfigUnderflow maxVolume = .ok config.maxVolume
  priceTickSize : inUnits .tradingPairConfigUnderflow priceTickSize = .ok config.priceTickSize
  qtyStepSize : inUnits .tradingPairConfigUnderflow qtyStepSize = .ok config.qtyStepSize

theorem Configured.valid_iff (h : Configured minVolume maxVolume priceTickSize qtyStepSize config) :
    config.Valid ↔ config.baseAssetPrecision = config.qtyStepSize.scale ∧
      config.quoteAssetPrecision = config.priceTickSize.scale := by
  have hv := h.validated
  simp only [validateTradingPairConfig, bind_eq_ok, ensure_eq_ok] at hv
  obtain ⟨_, ⟨_, _, htick, hstep⟩, _, _, _, _, hlt⟩ := hv
  refine ⟨fun hc => ⟨hc.basePrecision, hc.quotePrecision⟩, ?_⟩
  rintro ⟨hb, hq⟩
  refine ⟨?_, ?_, ?_, hb, hq⟩
  · exact isZero_of_inUnits htick h.priceTickSize
  · exact isZero_of_inUnits hstep h.qtyStepSize
  · exact le_of_inUnits hlt.le h.minVolume h.maxVolume

theorem registerTradingPair_eq_ok
    (h : s.registerTradingPair base quote minVolume maxVolume priceTickSize qtyStepSize = .ok s') :
    ∃ config, Configured minVolume maxVolume priceTickSize qtyStepSize config ∧
      config.baseAssetPrecision = config.qtyStepSize.scale ∧
      config.quoteAssetPrecision = config.priceTickSize.scale ∧ base ≠ quote ∧
      s.tradingPairs ⟨quote, base⟩ = none ∧
      s'.tradingPairs = (s.setPair base quote config).tradingPairs := by
  simp only [registerTradingPair, bind_eq_ok, pure_eq_ok, ensure_eq_ok] at h
  obtain ⟨_, _, _, hne, _, _, _, hrev, _, hv, _, _, _, _, a, ha, b, hb, c, hc, d, hd, t, ht, hs⟩ := h
  have hp : t.tradingPairs = _ := congrArg View.tradingPairs (Queues.pushIngress ht).view
  subst hs
  exact ⟨_, ⟨hv, ha, hb, hc, hd⟩, rfl, rfl, hne, hrev, hp⟩

theorem updateTradingPair_eq_ok
    (h : s.updateTradingPair base quote minVolume maxVolume priceTickSize qtyStepSize = .ok s') :
    ∃ config, Configured minVolume maxVolume priceTickSize qtyStepSize config ∧
      config.baseAssetPrecision = config.priceTickSize.scale ∧
      config.quoteAssetPrecision = config.qtyStepSize.scale ∧ base ≠ quote ∧
      s.tradingPairs ⟨base, quote⟩ ≠ none ∧
      s'.tradingPairs = (s.setPair base quote config).tradingPairs := by
  simp only [updateTradingPair, bind_eq_ok, pure_eq_ok, ensure_eq_ok, orElse_eq_ok] at h
  obtain ⟨_, _, _, hne, old, hold, _, _, _, hv, a, ha, b, hb, c, hc, d, hd, t, ht, hs⟩ := h
  have hp : t.tradingPairs = _ := congrArg View.tradingPairs (Queues.pushIngress ht).view
  subst hs
  exact ⟨_, ⟨hv, ha, hb, hc, hd⟩, rfl, rfl, hne, by simp [hold], hp⟩

end Arith

theorem tradingPairs_submitSnapshot [DecidableEq Acc] [PalletAccounts Acc]
    [Assets Acc W] [CrossChainGadget Acc W] [CrowdSourceLiquidityMining Acc W] [Percent] [Decimal.Arith]
 (h : s.submitSnapshot summary = .ok s') : s'.tradingPairs = s.tradingPairs := by
  simp only [submitSnapshot, executeWithdrawals, bind_eq_ok, pure_eq_ok] at h
  obtain ⟨s₁, h₁, s₂, h₂, s₃, h₃, s₄, h₄, hs⟩ := h
  have h₂ : s₂.tradingPairs = s.tradingPairs :=
    congrArg View.tradingPairs ((scores_updateScores h₁).queues.trans (Spends.processEgressMsg h₂).queues).view
  have h₃ : s₃.tradingPairs = s₂.tradingPairs := by
    split_ifs at h₃
    · exact Except.ok.inj h₃ ▸ rfl
    · exact (congrArg View.tradingPairs (Spends.foldlM .settleWithdrawalFee h₃).queues.view).trans
        (congrArg (·.2.2) (core_settleWithdrawals s₂ summary.snapshotId summary.withdrawals))
  have h₄ : s₄.tradingPairs = s₃.tradingPairs := congrArg View.tradingPairs (Queues.pushIngress h₄).view
  exact hs ▸ (h₄.trans h₃).trans h₂

theorem ValidPairs.setOperationalStatus (he : ∀ config, (event config).claimed = none)
    (h : s.ValidPairs) (hs : s.setOperationalStatus base quote status message event = .ok s') :
    s'.ValidPairs := by
  obtain ⟨config, hc, hq⟩ := queues_setOperationalStatus he hs
  simp only [State.setOperationalStatus, bind_eq_ok, ensure_eq_ok] at hs
  obtain ⟨_, _, _, hne, _⟩ := hs
  have hv := h.valid _ config hc
  have hset : (s.setPair base quote { config with operationalStatus := status }).ValidPairs :=
    (h.setPair hne (h.oneWay ⟨base, quote⟩ (by simp [hc]))).mpr
      ⟨hv.priceTick, hv.qtyStep, hv.volume, hv.basePrecision, hv.quotePrecision⟩
  exact hset.congr (congrArg View.tradingPairs hq.view)

end State

variable [DecidableEq Acc] [PalletAccounts Acc] [Assets Acc W]
  [CrossChainGadget Acc W] [CrowdSourceLiquidityMining Acc W] [Percent]
  [Authority Acc Auth AuthSign] [FaithfulArith]

namespace State

variable {s s' : State Acc Auth W cfg}

-- An update that is accepted has a price tick and a quantity step of the same scale.
def EvenUpdate (s : State Acc Auth W cfg) :
    Call Acc Auth AuthSign → Prop
  | .updateTradingPair base quote minVolume maxVolume priceTickSize qtyStepSize =>
    step s (.updateTradingPair base quote minVolume maxVolume priceTickSize qtyStepSize :
      Call Acc Auth AuthSign) ≠ none →
    ∀ tick qty, inUnits .tradingPairConfigUnderflow priceTickSize = .ok tick →
      inUnits .tradingPairConfigUnderflow qtyStepSize = .ok qty → tick.scale = qty.scale
  | _ => True

theorem validPairs_dispatch_iff (h : s.ValidPairs)
    {c : Call Acc Auth AuthSign} (hd : dispatch s c = .ok s') :
    s'.ValidPairs ↔ s.EvenUpdate c := by
  cases c with
  | registerTradingPair base quote =>
    obtain ⟨config, hc, hb, hq, hne, hrev, hp⟩ := registerTradingPair_eq_ok hd
    have hset := (h.setPair hne hrev).mpr (hc.valid_iff.mpr ⟨hb, hq⟩)
    exact iff_of_true (hset.congr hp) trivial
  | updateTradingPair base quote minVolume maxVolume priceTickSize qtyStepSize =>
    obtain ⟨config, hc, hb, hq, hne, hold, hp⟩ := updateTradingPair_eq_ok hd
    have hset : (s.setPair base quote config).ValidPairs ↔ _ :=
      (h.setPair hne (h.oneWay ⟨base, quote⟩ hold)).trans hc.valid_iff
    have hs : s'.ValidPairs ↔ (s.setPair base quote config).ValidPairs :=
      ⟨fun hv => hv.congr hp.symm, fun hv => hv.congr hp⟩
    have hstep : step s (.updateTradingPair base quote minVolume maxVolume priceTickSize qtyStepSize :
        Call Acc Auth AuthSign) ≠ none := by
      simp [step, hd, Except.toOption]
    rw [hs, hset, hb, hq]
    refine ⟨fun he _ tick qty htick hqty => ?_, fun he => ?_⟩
    · cases hc.priceTickSize.symm.trans htick
      cases hc.qtyStepSize.symm.trans hqty
      exact he.1
    · have he := he hstep _ _ hc.priceTickSize hc.qtyStepSize
      exact ⟨he, he.symm⟩
  | closeTradingPair | openTradingPair =>
    exact iff_of_true (h.setOperationalStatus (fun _ => rfl) hd) trivial
  | claimWithdraw => exact iff_of_true (h.congr (congrArg (·.2.2) (core_claimWithdraw hd))) trivial
  | submitSnapshot =>
    simp only [dispatch, bind_eq_ok] at hd
    obtain ⟨_, _, hd⟩ := hd
    exact iff_of_true (h.congr (tradingPairs_submitSnapshot hd)) trivial
  | _ =>
    obtain ⟨t, ht, hf⟩ := sets_of_dispatch (by simp) (by simp) hd
    have hp : s'.tradingPairs = t.tradingPairs := congrArg View.tradingPairs hf.view
    have ht : t.tradingPairs = s.tradingPairs := (congrArg State.tradingPairs ht).trans rfl
    exact iff_of_true (h.congr (hp.trans ht)) trivial

theorem validPairs_exec_iff (h : s.ValidPairs) (c : Call Acc Auth AuthSign) :
    (Run.exec step s c).ValidPairs ↔ s.EvenUpdate c := by
  rcases Run.exec_cases step s c with hstep | ⟨hstep, hexec⟩
  · exact validPairs_dispatch_iff h (toOption_eq_some.mp hstep)
  · rw [hexec]
    refine iff_of_true h ?_
    cases c with
    | updateTradingPair => exact fun hn => absurd hstep hn
    | _ => trivial

end State

-- The configurations stay valid as long as the updates do not tell the two precisions apart.
theorem valid_pairs_iff (authorities : List Auth) (world : W)
    (calls : List (Call Acc Auth AuthSign)) :
    (∀ e ∈ Run.trace step (State.genesis authorities world : State Acc Auth W cfg) calls,
      (Run.exec step e.1 e.2).ValidPairs) ↔
    Run.Along step State.EvenUpdate
      (State.genesis authorities world : State Acc Auth W cfg) calls := by
  have hall : Run.Along step (fun _ _ => True)
      (State.genesis authorities world : State Acc Auth W cfg) calls := fun _ _ => trivial
  have hinit : (State.genesis authorities world : State Acc Auth W cfg).ValidPairs :=
    ⟨by simp [State.genesis], by simp [State.genesis]⟩
  exact hall.congr (motive := State.ValidPairs) hinit
    (fun s c _ h => State.validPairs_exec_iff h c) fun s c _ hp _ => hp

end Runs

namespace Mock

attribute [local instance] Decimal.HalfEven.faithfulArith percent

def updatedPair (priceTickSize qtyStepSize : ℕ) : List (Call Account ℕ AuthSig) :=
  [.setExchangeState true, .allowlistToken (.asset 1), .allowlistToken .polkadex,
    .registerTradingPair (.asset 1) .polkadex unitBalance (100 * unitBalance) unitBalance unitBalance,
    .closeTradingPair (.asset 1) .polkadex,
    .updateTradingPair (.asset 1) .polkadex unitBalance (100 * unitBalance) priceTickSize qtyStepSize]

-- A price tick of ten units, and a quantity step of one tenth of a unit.
theorem update_swaps_precisions : (∃ config,
      (Run.run step (State.genesis [7] fun _ _ => 0 : State Account ℕ World Mock.config)
        (updatedPair (10 * unitBalance) (unitBalance / 10))).tradingPairs ⟨.asset 1, .polkadex⟩ =
        some config ∧ config.baseAssetPrecision = config.priceTickSize.scale ∧
      config.baseAssetPrecision ≠ config.qtyStepSize.scale) ∧
    ¬∀ e ∈ Run.trace step (State.genesis [7] fun _ _ => 0 : State Account ℕ World Mock.config)
      (updatedPair (10 * unitBalance) (unitBalance / 10)), (Run.exec step e.1 e.2).ValidPairs := by
  have hswap : ∃ config,
      (Run.run step (State.genesis [7] fun _ _ => 0 : State Account ℕ World Mock.config)
        (updatedPair (10 * unitBalance) (unitBalance / 10))).tradingPairs ⟨.asset 1, .polkadex⟩ =
        some config ∧ config.baseAssetPrecision = config.priceTickSize.scale ∧
      config.baseAssetPrecision ≠ config.qtyStepSize.scale := by
    refine ⟨_, rfl, rfl, ?_⟩
    decide +kernel
  refine ⟨hswap, fun h => ?_⟩
  obtain ⟨config, hc, _, hne⟩ := hswap
  have hlast := h _ (List.mem_of_getLast? rfl)
  exact hne (hlast.valid _ config hc).basePrecision

end Mock

end Ocex
