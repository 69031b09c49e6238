import PolkadexModel.Lib.Trees
import PolkadexModel.Ocex.Theorems.Amounts
import PolkadexModel.Ocex.Theorems.Finalisation

open Function List

-- The rewards that the accounts can claim, against those that are configured for an epoch.
namespace Ocex

open Decimal (FaithfulArith LawfulDiv OnGrid)

variable {Acc Auth W : Type} [Ord Acc] {cfg : Config}

namespace State

def claimable [Decimal.Arith] (s : State Acc Auth W cfg) (epoch : ℕ)
    (config : LMPEpochConfig) (key : TradingPair × Acc) : ℕ :=
  let rewards := s.calculateLmpRewards key.2 epoch key.1 config
  (inPlanck (rewards.1.saturatingAdd rewards.2.1)).toOption.getD 0

variable {s s' : State Acc Auth W cfg} {epoch : ℕ} {config : LMPEpochConfig}

theorem eq_claimable [DecidableEq Acc] [RewardsAccount Acc W] [Decimal.Arith]
 (hc : s.lmpConfig epoch = some config) (h : s.doClaimLmpRewards main epoch market = .ok (s', total)) :
    total = s.claimable epoch config (market, main) := by
  simp only [doClaimLmpRewards, hc, bind_eq_ok, pure_eq_ok, ensure_eq_ok, orElse_eq_ok,
    Option.some.injEq, Prod.mk.injEq] at h
  obtain ⟨_, _, _, _, _, he, _, _, n, hn, _, _, _, ht⟩ := h
  subst he ht
  simp only [claimable, hn, Except.toOption, Option.getD_some]

-- The amounts of a configuration are whole numbers of the smallest denomination, and not too large.
structure Payable (reward : Decimal) : Prop where
  whole : OnGrid 12 reward.toRat
  nonneg : 0 ≤ reward.toRat
  le : reward.toRat ≤ 10 ^ 9

section Arith

variable [FaithfulArith] [LawfulDiv] {score total : Decimal}

theorem portion_le (hs : 0 ≤ score.toRat) (ht : score.toRat ≤ total.toRat) :
    0 ≤ (portion score total).toRat ∧
      (portion score total).toRat ≤ score.toRat / total.toRat + 1 / 10 ^ 28 := by
  by_cases hz : total.toRat = 0
  case pos =>
    rw [portion, LawfulDiv.div_zero score total hz, hz]
    simp
  case neg =>
    have hpos : 0 < total.toRat := (hs.trans ht).lt_of_ne' hz
    have hle : score.toRat / total.toRat ≤ 1 := (div_le_one hpos).mpr ht
    have hnn : 0 ≤ score.toRat / total.toRat := by positivity
    have hf := Decimal.faithful_checkedDiv hs hpos ht
    exact ⟨hf.nonneg hnn, hf.toRat_le_add le_rfl hnn (by linarith)⟩

variable {reward : Decimal}

theorem reward_le (hr : 0 ≤ reward.toRat) (hb : reward.toRat ≤ 10 ^ 9) (hs : 0 ≤ score.toRat)
    (ht : score.toRat ≤ total.toRat) :
    0 ≤ (reward.saturatingMul (portion score total)).toRat ∧
      (reward.saturatingMul (portion score total)).toRat ≤
        reward.toRat * (score.toRat / total.toRat) + 2 / 10 ^ 19 := by
  obtain ⟨hp, hle⟩ := portion_le hs ht
  have hf := Decimal.faithful_saturatingMul reward (portion score total)
  have hnn : 0 ≤ reward.toRat * (portion score total).toRat := by positivity
  have hfrac : 0 ≤ score.toRat / total.toRat := div_nonneg hs (hs.trans ht)
  have hone : score.toRat / total.toRat ≤ 1 := div_le_one_of_le₀ ht (hs.trans ht)
  have hmul : reward.toRat * (portion score total).toRat ≤
      reward.toRat * (score.toRat / total.toRat) + 1 / 10 ^ 19 := by
    calc reward.toRat * (portion score total).toRat
      _ ≤ reward.toRat * (score.toRat / total.toRat + 1 / 10 ^ 28) := by gcongr
      _ = reward.toRat * (score.toRat / total.toRat) + reward.toRat * (1 / 10 ^ 28) := mul_add ..
      _ ≤ reward.toRat * (score.toRat / total.toRat) + 10 ^ 9 * (1 / 10 ^ 28) := by gcongr
      _ = _ := by norm_num
  have hbound : reward.toRat * (score.toRat / total.toRat) ≤ 10 ^ 9 := by
    calc _ ≤ 10 ^ 9 * (1 : ℚ) := by gcongr
      _ = 10 ^ 9 := mul_one _
  refine ⟨hf.nonneg hnn, ?_⟩
  have := hf.toRat_le_add (k := 19) (by norm_num) hnn (by norm_num at *; linarith)
  linarith

theorem claimable_le (key : TradingPair × Acc)
    (hmining : Payable config.totalLiquidityMiningRewards) (htrading : Payable config.totalTradingRewards)
    (htotal : s.totalScores (epoch, key.1) = (total, totalFees))
    (hmetrics : s.traderMetrics (epoch, key.1, key.2) = (score, fees, claimed))
    (hs : 0 ≤ score.toRat) (hle : score.toRat ≤ total.toRat) (hf : 0 ≤ fees.toRat)
    (hle' : fees.toRat ≤ totalFees.toRat) : (s.claimable epoch config key : ℚ) ≤
      (config.totalLiquidityMiningRewards.toRat * (score.toRat / total.toRat) +
        config.totalTradingRewards.toRat * (fees.toRat / totalFees.toRat)) * 10 ^ 12 + 1 / 10 ^ 6 := by
  obtain ⟨hmm, hmm'⟩ := reward_le hmining.nonneg hmining.le hs hle
  obtain ⟨htr, htr'⟩ := reward_le htrading.nonneg htrading.le hf hle'
  have hbound {a b c : ℚ} (ha : 0 ≤ a) (ha' : a ≤ 10 ^ 9) (hb : 0 ≤ b) (hbc : b ≤ c) :
      0 ≤ a * (b / c) ∧ a * (b / c) ≤ 10 ^ 9 := by
    have h₀ : 0 ≤ b / c := div_nonneg hb (hb.trans hbc)
    have h₁ : b / c ≤ 1 := div_le_one_of_le₀ hbc (hb.trans hbc)
    exact ⟨by positivity, by nlinarith⟩
  obtain ⟨hmm₀, hmm₁⟩ := hbound hmining.nonneg hmining.le hs hle
  obtain ⟨htr₀, htr₁⟩ := hbound htrading.nonneg htrading.le hf hle'
  simp only [claimable, calculateLmpRewards, htotal, hmetrics]
  set mm := config.totalLiquidityMiningRewards.saturatingMul (portion score total)
  set tr := config.totalTradingRewards.saturatingMul (portion fees totalFees)
  have hsum := (Decimal.faithful_saturatingAdd mm tr).toRat_le_add (k := 19) (by norm_num)
    (by positivity) (by norm_num at *; linarith)
  cases hn : inPlanck (mm.saturatingAdd tr) with
  | error e =>
    simp only [Except.toOption, Option.getD_none, Nat.cast_zero]
    positivity
  | ok n =>
    have hle := le_of_inPlanck hn
    simp only [Except.toOption, Option.getD_some]
    norm_num at *
    linarith

end Arith

section Store

variable [DecidableEq Acc]

abbrev Market (Acc : Type) [Ord Acc] :=
  TradingPair × Std.TreeMap Acc (Decimal × Decimal) × (Decimal × Decimal)

-- The scores of the markets are stored for an epoch, or a part of them if there are too many.
structure Stored (epoch : ℕ) (markets : List (Market Acc))
    (s s' : State Acc Auth W cfg) : Prop where
  totals : ∀ market ∈ markets, s'.totalScores (epoch, market.1) = market.2.2
  others : ∀ pair, (∀ market ∈ markets, market.1 ≠ pair) →
    s'.totalScores (epoch, pair) = s.totalScores (epoch, pair)
  metrics : ∀ pair main, s'.traderMetrics (epoch, pair, main) = s.traderMetrics (epoch, pair, main) ∨
    ∃ market ∈ markets, market.1 = pair ∧ ∃ entry ∈ market.2.1.toList, entry.1 = main ∧
      s'.traderMetrics (epoch, pair, main) = (entry.2.1, entry.2.2, false)
  config : s'.lmpConfig = s.lmpConfig

omit [Ord Acc] in
theorem storeMetrics_cases (epoch : ℕ) (pair : TradingPair)
    (metrics : ℕ × TradingPair × Acc → Decimal × Decimal × Bool) (counter : ℕ)
    (scores : List (Acc × (Decimal × Decimal))) (pair' : TradingPair) (main : Acc) :
    (storeMetrics epoch pair metrics counter scores).1 (epoch, pair', main) =
      metrics (epoch, pair', main) ∨
    pair = pair' ∧ ∃ entry ∈ scores, entry.1 = main ∧
      (storeMetrics epoch pair metrics counter scores).1 (epoch, pair', main) =
        (entry.2.1, entry.2.2, false) := by
  induction scores generalizing metrics counter with
  | nil => exact .inl rfl
  | cons entry scores hi =>
    set metrics' := update metrics (epoch, pair, entry.1) (entry.2.1, entry.2.2, false)
    have hnew : metrics' (epoch, pair', main) = metrics (epoch, pair', main) ∨ pair = pair' ∧
        entry.1 = main ∧ metrics' (epoch, pair', main) = (entry.2.1, entry.2.2, false) := by
      by_cases hk : (epoch, pair', main) = (epoch, pair, entry.1)
      · simp only [Prod.mk.injEq, true_and] at hk
        exact .inr ⟨hk.1.symm, hk.2.symm, by simp [metrics', hk.1, hk.2]⟩
      · exact .inl (update_of_ne hk ..)
    have hcons : (storeMetrics epoch pair metrics counter (entry :: scores)).1 =
        if counter - 1 = 0 then metrics'
        else (storeMetrics epoch pair metrics' (counter - 1) scores).1 := by
      simp only [storeMetrics, metrics']
      split_ifs <;> rfl
    rw [hcons]
    split_ifs
    case pos =>
      rcases hnew with hnew | ⟨hp, hm, hnew⟩
      · exact .inl hnew
      · exact .inr ⟨hp, entry, mem_cons_self, hm, hnew⟩
    case neg =>
      rcases hi metrics' (counter - 1) with hold | ⟨hp, entry', hmem, hm, hval⟩
      · rw [hold]
        rcases hnew with hnew | ⟨hp, hm, hnew⟩
        · exact .inl hnew
        · exact .inr ⟨hp, entry, mem_cons_self, hm, hnew⟩
      · exact .inr ⟨hp, entry', mem_cons_of_mem _ hmem, hm, hval⟩

theorem stored_foldl (h : markets.Pairwise fun x y => x.1 ≠ y.1) (acc : State Acc Auth W cfg × ℕ) :
    Stored epoch markets acc.1 (markets.foldl (storeMarket epoch) acc).1 := by
  induction markets generalizing acc with
  | nil => exact ⟨by simp, by simp, fun _ _ => .inl rfl, rfl⟩
  | cons market markets hi =>
    obtain ⟨hne, h⟩ := pairwise_cons.mp h
    have hrest := hi h (storeMarket epoch acc market)
    rw [foldl_cons]
    refine ⟨fun market' hm => ?totals, fun pair hp => ?others, fun pair main => ?metrics, ?config⟩
    case totals =>
      cases mem_cons.mp hm with
      | inl he =>
        rw [he, hrest.others market.1 fun m hm => (hne m hm).symm]
        exact update_self ..
      | inr hm => exact hrest.totals market' hm
    case others =>
      rw [hrest.others pair fun m hm => hp m (mem_cons_of_mem _ hm)]
      refine update_of_ne (fun he => ?_) ..
      exact hp market mem_cons_self (congrArg Prod.snd he).symm
    case metrics =>
      rcases hrest.metrics pair main with hold | ⟨m, hm, hrest⟩
      · rw [hold]
        rcases storeMetrics_cases epoch market.1 acc.1.traderMetrics acc.2 market.2.1.toList pair main
          with hold | ⟨hp, hentry⟩
        · exact .inl hold
        · exact .inr ⟨market, mem_cons_self, hp, hentry⟩
      · exact .inr ⟨m, mem_cons_of_mem _ hm, hrest⟩
    case config => exact hrest.config

theorem stored_updateLmpScores
    (hf : s.finalizeLMPScore = some epoch) (h : s.updateLmpScores metrics = .ok s') :
    Stored epoch metrics.toList s s' := by
  simp only [updateLmpScores, hf, bind_eq_ok, pure_eq_ok] at h
  obtain ⟨config, _, hs⟩ := h
  have ht : Stored epoch metrics.toList s _ :=
    stored_foldl (Trees.distinct_toList metrics) (s, config.maxAccountsRewarded)
  exact hs ▸ ⟨ht.totals, ht.others, ht.metrics, ht.config⟩

end Store

-- The totals of a market are the sums over its accounts.
structure Summed (market : Market Acc) : Prop where
  score : (market.2.1.toList.map (·.2.1.toRat)).sum = market.2.2.1.toRat
  fees : (market.2.1.toList.map (·.2.2.toRat)).sum = market.2.2.2.toRat

def Nonneg (market : Market Acc) : Prop :=
  ∀ entry ∈ market.2.1.toList, 0 ≤ entry.2.1.toRat ∧ 0 ≤ entry.2.2.toRat

theorem sum_map_affine {α : Type} (l : List α) (f g : α → ℚ) (a b c : ℚ) :
    (l.map fun x => f x * a + g x * b + c).sum =
      (l.map f).sum * a + (l.map g).sum * b + l.length * c := by
  induction l with
  | nil => simp
  | cons x l hi =>
    simp only [map_cons, sum_cons, hi, length_cons, Nat.cast_succ]
    ring

theorem sum_toFinset_le {α : Type} [DecidableEq α] (l : List α) (f : α → ℕ) :
    ∑ x ∈ l.toFinset, f x ≤ (l.map f).sum := by
  rw [Finset.sum_list_map_count]
  refine Finset.sum_le_sum fun x hx => ?_
  exact Nat.le_mul_of_pos_left _ (count_pos_iff.mpr (mem_toFinset.mp hx))

theorem sum_markets (markets : List (Market Acc)) (a b c : ℚ) :
    (markets.map fun market => (a * (if market.2.2.1.isZero then 0 else 1) +
      b * (if market.2.2.2.isZero then 0 else 1)) * 10 ^ 12 + market.2.1.toList.length * c).sum =
    (a * (markets.countP fun market => !market.2.2.1.isZero) +
      b * (markets.countP fun market => !market.2.2.2.isZero)) * 10 ^ 12 +
      ((markets.map (·.2.1.toList.length)).sum : ℕ) * c := by
  induction markets with
  | nil => simp
  | cons market markets hi =>
    simp only [map_cons, sum_cons, hi, countP_cons]
    cases market.2.2.1.isZero <;> cases market.2.2.2.isZero <;> simp <;> ring

section Market

variable {market : Market Acc}

theorem Nonneg.le_total (h : Nonneg market) (hsum : Summed market) (he : entry ∈ market.2.1.toList) :
    entry.2.1.toRat ≤ market.2.2.1.toRat ∧ entry.2.2.toRat ≤ market.2.2.2.toRat := by
  constructor
  · rw [← hsum.score]
    refine single_le_sum (fun x hx => ?_) _ (mem_map_of_mem he)
    obtain ⟨e, he, hx⟩ := mem_map.mp hx
    exact hx ▸ (h e he).1
  · rw [← hsum.fees]
    refine single_le_sum (fun x hx => ?_) _ (mem_map_of_mem he)
    obtain ⟨e, he, hx⟩ := mem_map.mp hx
    exact hx ▸ (h e he).2

theorem Nonneg.total_nonneg (h : Nonneg market) (hsum : Summed market) :
    0 ≤ market.2.2.1.toRat ∧ 0 ≤ market.2.2.2.toRat := by
  rw [← hsum.score, ← hsum.fees]
  constructor
  · refine sum_nonneg fun x hx => ?_
    obtain ⟨e, he, hx⟩ := mem_map.mp hx
    exact hx ▸ (h e he).1
  · refine sum_nonneg fun x hx => ?_
    obtain ⟨e, he, hx⟩ := mem_map.mp hx
    exact hx ▸ (h e he).2

end Market

def keys (markets : List (Market Acc)) : List (TradingPair × Acc) :=
  markets.flatMap fun market => market.2.1.toList.map fun entry => (market.1, entry.1)

-- The configured rewards are paid for every market in which somebody has a score, and likewise for
-- the fees. There are not too many accounts for the rounding to matter.
structure Affordable (config : LMPEpochConfig) (metrics : TradingPairMetricsMap Acc) : Prop where
  mining : Payable config.totalLiquidityMiningRewards
  trading : Payable config.totalTradingRewards
  nonneg : ∀ market ∈ metrics.toList, Nonneg market
  accounts : (metrics.toList.map (·.2.1.toList.length)).sum < 10 ^ 6
  markets : config.totalLiquidityMiningRewards.toRat *
      (metrics.toList.countP fun market => !market.2.2.1.isZero) +
    config.totalTradingRewards.toRat * (metrics.toList.countP fun market => !market.2.2.2.isZero) ≤
    config.totalLiquidityMiningRewards.toRat + config.totalTradingRewards.toRat

-- The scores of an epoch, which had none before.
structure Fresh (s : State Acc Auth W cfg) (epoch : ℕ) : Prop where
  totals : ∀ pair, s.totalScores (epoch, pair) = (0, 0)
  metrics : ∀ pair main, s.traderMetrics (epoch, pair, main) = (0, 0, false)

section Budget

variable [Std.TransOrd Acc] [Std.LawfulEqOrd Acc] [FaithfulArith] [LawfulDiv]
  {metrics : TradingPairMetricsMap Acc}

variable (ha : Affordable config metrics) (hsum : ∀ market ∈ metrics.toList, Summed market)
  (hfresh : s.Fresh epoch) (hst : Stored epoch metrics.toList s s')

include ha hsum hfresh hst

theorem claimable_entry_le {market : Market Acc} (hm : market ∈ metrics.toList)
 (he : entry ∈ market.2.1.toList) : (s'.claimable epoch config (market.1, entry.1) : ℚ) ≤
      entry.2.1.toRat * (config.totalLiquidityMiningRewards.toRat / market.2.2.1.toRat * 10 ^ 12) +
      entry.2.2.toRat * (config.totalTradingRewards.toRat / market.2.2.2.toRat * 10 ^ 12) +
      1 / 10 ^ 6 := by
  have hn := ha.nonneg market hm
  obtain ⟨hs, hf⟩ := hn entry he
  obtain ⟨hle, hle'⟩ := hn.le_total (hsum market hm) he
  obtain ⟨hS, hF⟩ := hn.total_nonneg (hsum market hm)
  have hL := ha.mining.nonneg
  have hT := ha.trading.nonneg
  rcases hst.metrics market.1 entry.1 with hold | ⟨market', hm', hp, entry', he', hk, hval⟩
  case inl =>
    -- An account that was left out has no rewards.
    rw [hfresh.metrics] at hold
    have h := claimable_le (market.1, entry.1) ha.mining ha.trading (hst.totals market hm) hold
      (by simp) (by simpa using hS) (by simp) (by simpa using hF)
    simp only [Decimal.toRat_zero, zero_div, mul_zero, add_zero, zero_mul, zero_add] at h
    refine h.trans (le_add_of_nonneg_left ?_)
    positivity
  case inr =>
    have hmarket := inj_on_of_nodup_map
      (pairwise_map.mpr (Trees.distinct_toList metrics)) hm' hm hp
    subst hmarket
    have hentry := inj_on_of_nodup_map
      (pairwise_map.mpr (Trees.distinct_toList market'.2.1)) he' he hk
    subst hentry
    refine (claimable_le (market'.1, entry'.1) ha.mining ha.trading (hst.totals market' hm) hval
      hs hle hf hle').trans_eq ?_
    ring

omit [Std.TransOrd Acc] [Std.LawfulEqOrd Acc] in
theorem claimable_eq_zero (hk : key ∉ keys metrics.toList) : s'.claimable epoch config key = 0 := by
  have hold : s'.traderMetrics (epoch, key.1, key.2) = (0, 0, false) := by
    rcases hst.metrics key.1 key.2 with hold | ⟨market, hm, hp, entry, he, hmain, _⟩
    · rw [hold, hfresh.metrics]
    · refine absurd (mem_flatMap.mpr ⟨market, hm, mem_map.mpr ⟨entry, he, ?_⟩⟩) hk
      exact Prod.ext hp hmain
  have htotal : 0 ≤ (s'.totalScores (epoch, key.1)).1.toRat ∧
      0 ≤ (s'.totalScores (epoch, key.1)).2.toRat := by
    by_cases hm : ∀ market ∈ metrics.toList, market.1 ≠ key.1
    · rw [hst.others key.1 hm, hfresh.totals]
      simp
    · push Not at hm
      obtain ⟨market, hm, hp⟩ := hm
      rw [← hp, hst.totals market hm]
      exact (ha.nonneg market hm).total_nonneg (hsum market hm)
  have h := claimable_le key ha.mining ha.trading (Prod.mk.eta.symm : _ = (_, _)) hold
    (by simp) (by simpa using htotal.1) (by simp) (by simpa using htotal.2)
  simp only [Decimal.toRat_zero, zero_div, mul_zero, add_zero, zero_mul, zero_add] at h
  have hlt : (s'.claimable epoch config key : ℚ) < 1 := h.trans_lt (by norm_num)
  exact Nat.lt_one_iff.mp (by exact_mod_cast hlt)

-- The accounts of a market are paid the rewards of the configuration, if anybody has a score.
theorem sum_market_le {market : Market Acc} (hm : market ∈ metrics.toList) :
    (market.2.1.toList.map fun entry => (s'.claimable epoch config (market.1, entry.1) : ℚ)).sum ≤
      (config.totalLiquidityMiningRewards.toRat * (if market.2.2.1.isZero then 0 else 1) +
        config.totalTradingRewards.toRat * (if market.2.2.2.isZero then 0 else 1)) * 10 ^ 12 +
      market.2.1.toList.length * (1 / 10 ^ 6) := by
  have hle : (market.2.1.toList.map fun entry =>
      (s'.claimable epoch config (market.1, entry.1) : ℚ)).sum ≤
      (market.2.1.toList.map fun entry =>
        entry.2.1.toRat * (config.totalLiquidityMiningRewards.toRat / market.2.2.1.toRat * 10 ^ 12) +
        entry.2.2.toRat * (config.totalTradingRewards.toRat / market.2.2.2.toRat * 10 ^ 12) +
        1 / 10 ^ 6).sum :=
    sum_le_sum fun entry he => claimable_entry_le ha hsum hfresh hst hm he
  have whole (x : Decimal) (a : ℚ) : x.toRat * (a / x.toRat * 10 ^ 12) =
      a * (if x.isZero then 0 else 1) * 10 ^ 12 := by
    by_cases hz : x.isZero
    · simp [hz, Decimal.isZero_iff.mp hz]
    · have hz' := mt Decimal.isZero_iff.mpr hz
      rw [if_neg hz]
      field_simp
  rw [sum_map_affine, (hsum market hm).score, (hsum market hm).fees, whole, whole] at hle
  linarith

theorem sum_keys_lt : (((keys metrics.toList).map (s'.claimable epoch config)).sum : ℕ) <
    (config.totalLiquidityMiningRewards.toRat + config.totalTradingRewards.toRat) * 10 ^ 12 + 1 := by
  have hsplit : ((((keys metrics.toList).map (s'.claimable epoch config)).sum : ℕ) : ℚ) =
      (metrics.toList.map fun market => (market.2.1.toList.map fun entry =>
        (s'.claimable epoch config (market.1, entry.1) : ℚ)).sum).sum := by
    rw [keys]
    induction metrics.toList with
    | nil => rfl
    | cons market markets hi =>
      rw [flatMap_cons, map_append, sum_append, Nat.cast_add, hi, map_cons,
        sum_cons, map_map, Nat.cast_list_sum, map_map]
      rfl
  rw [hsplit]
  calc _ ≤ _ := sum_le_sum fun market hm => sum_market_le ha hsum hfresh hst hm
    _ = _ := sum_markets ..
    _ < _ := by
      have hn : (((metrics.toList.map (·.2.1.toList.length)).sum : ℕ) : ℚ) < 10 ^ 6 := by
        exact_mod_cast ha.accounts
      have hm := ha.markets
      linarith

theorem sum_keys_le : (((keys metrics.toList).map (s'.claimable epoch config)).sum : ℕ) ≤
    (config.totalLiquidityMiningRewards.toRat + config.totalTradingRewards.toRat) * 10 ^ 12 := by
  obtain ⟨n, hn⟩ := ha.mining.whole.add ha.trading.whole
  have hlt := sum_keys_lt ha hsum hfresh hst
  rw [hn, div_mul_cancel₀ _ (by positivity)] at hlt ⊢
  generalize ((keys metrics.toList).map (s'.claimable epoch config)).sum = total at hlt ⊢
  have hle : (total : ℤ) < n + 1 := by exact_mod_cast hlt
  exact_mod_cast Int.lt_add_one_iff.mp hle

theorem sum_claimable_le (accounts : Finset (TradingPair × Acc)) :
    ((∑ key ∈ accounts, s'.claimable epoch config key : ℕ) : ℚ) ≤
      (config.totalLiquidityMiningRewards.toRat + config.totalTradingRewards.toRat) * 10 ^ 12 := by
  classical
  refine le_trans ?_ (sum_keys_le ha hsum hfresh hst)
  rw [Nat.cast_le]
  calc ∑ key ∈ accounts, s'.claimable epoch config key
    _ ≤ ∑ key ∈ (keys metrics.toList).toFinset, s'.claimable epoch config key := by
      refine Finset.sum_le_sum_of_ne_zero fun key _ hne => mem_toFinset.mpr ?_
      by_contra hk
      exact hne (claimable_eq_zero ha hsum hfresh hst hk)
    _ ≤ ((keys metrics.toList).map (s'.claimable epoch config)).sum := sum_toFinset_le ..

end Budget

end State

section Epoch

variable [DecidableEq Acc] [Std.TransOrd Acc] [Std.LawfulEqOrd Acc]
  [RewardsAccount Acc W] [FaithfulArith] [LawfulDiv]

-- The rewards that can be claimed after the scores of an epoch were stored.
theorem rewards_within_budget {s s' : State Acc Auth W cfg} {epoch : ℕ}
    {config : LMPEpochConfig} {metrics : TradingPairMetricsMap Acc}
    (hf : s.finalizeLMPScore = some epoch) (hc : s.lmpConfig epoch = some config)
    (hfresh : s.Fresh epoch) (h : s.updateLmpScores metrics = .ok s')
    (hsum : ∀ market ∈ metrics.toList, State.Summed market) (ha : State.Affordable config metrics) :
    (∀ (market : TradingPair) (main : Acc) (t : State Acc Auth W cfg) (total : ℕ),
      s'.doClaimLmpRewards main epoch market = .ok (t, total) →
        total = s'.claimable epoch config (market, main)) ∧
    ∀ accounts : Finset (TradingPair × Acc),
      ((∑ key ∈ accounts, s'.claimable epoch config key : ℕ) : ℚ) ≤
        (config.totalLiquidityMiningRewards.toRat + config.totalTradingRewards.toRat) * 10 ^ 12 := by
  have hst := State.stored_updateLmpScores hf h
  refine ⟨fun market main t total ht => ?_, State.sum_claimable_le ha hsum hfresh hst⟩
  exact State.eq_claimable (by rw [hst.config, hc]) ht

end Epoch

namespace Mock

attribute [local instance] Decimal.HalfEven.faithfulArith Decimal.HalfEven.lawfulDiv percent

def budget : LMPEpochConfig :=
  ⟨two, two, ∅, 20, 0⟩

def dueEpoch : State Account ℕ World config :=
  { rewardsGenesis with finalizeLMPScore := some 0, lmpConfig := fun _ => some budget }

def twoTraders : Std.TreeMap Account (Decimal × Decimal) :=
  ((∅ : Std.TreeMap Account (Decimal × Decimal)).insert 2 (1, 1)).insert 3 (1, 0)

def oneMarket : TradingPairMetricsMap Account :=
  (∅ : TradingPairMetricsMap Account).insert lmpMarket (twoTraders, (two, 1))

def scoredEpoch : State Account ℕ World config :=
  (dueEpoch.updateLmpScores oneMarket).toOption.getD dueEpoch

theorem mem_oneMarket {market : State.Market Account} (h : market ∈ oneMarket.toList) :
    market = (lmpMarket, twoTraders, (two, 1)) :=
  mem_singleton.mp h

theorem summed_oneMarket : ∀ market ∈ oneMarket.toList, State.Summed market := by
  intro market h
  rw [mem_oneMarket h]
  exact ⟨by decide +kernel, by decide +kernel⟩

theorem affordable_oneMarket : State.Affordable budget oneMarket where
  mining := ⟨⟨2 * 10 ^ 12, by decide +kernel⟩, by decide +kernel, by decide +kernel⟩
  trading := ⟨⟨2 * 10 ^ 12, by decide +kernel⟩, by decide +kernel, by decide +kernel⟩
  nonneg := by
    intro market h
    rw [mem_oneMarket h, State.Nonneg]
    decide +kernel
  accounts := by decide +kernel
  markets := by decide +kernel

theorem one_market_within_budget : dueEpoch.updateLmpScores oneMarket = .ok scoredEpoch ∧
    scoredEpoch.claimable 0 budget (lmpMarket, 2) = 3 * unitBalance ∧
    ((∑ key ∈ {(lmpMarket, 2), (lmpMarket, 3)}, scoredEpoch.claimable 0 budget key : ℕ) : ℚ) ≤
      (budget.totalLiquidityMiningRewards.toRat + budget.totalTradingRewards.toRat) * 10 ^ 12 := by
  have h : dueEpoch.updateLmpScores oneMarket = .ok scoredEpoch := rfl
  have hfresh : dueEpoch.Fresh 0 := ⟨fun _ => rfl, fun _ _ => rfl⟩
  exact ⟨h, by decide +kernel,
    (rewards_within_budget rfl rfl hfresh h summed_oneMarket affordable_oneMarket).2 _⟩

def secondMarket : TradingPair where
  base := .asset 2
  quote := .polkadex

def soleTrader : Std.TreeMap Account (Decimal × Decimal) :=
  (∅ : Std.TreeMap Account (Decimal × Decimal)).insert 2 (1, 1)

def twoMarkets : TradingPairMetricsMap Account :=
  ((∅ : TradingPairMetricsMap Account).insert lmpMarket (soleTrader, (1, 1))).insert secondMarket
    (soleTrader, (1, 1))

def halfWeights : Call Account ℕ AuthSig :=
  .setLmpEpochConfig (some (2 * unitBalance)) (some (2 * unitBalance))
    [⟨lmpMarket, unitBalance / 2, 0, 0, 0, 0⟩, ⟨secondMarket, unitBalance / 2, 0, 0, 0, 0⟩] none (some 0)

def twoMarketsEpoch : List (LmpCall Account ℕ AuthSig) :=
  [.call (.setExchangeState true), .call (.allowlistToken (.asset 1)), .call (.allowlistToken (.asset 2)),
    .call (.allowlistToken .polkadex),
    .call (.registerTradingPair (.asset 1) .polkadex unitBalance (100 * unitBalance) unitBalance unitBalance),
    .call (.registerTradingPair (.asset 2) .polkadex unitBalance (100 * unitBalance) unitBalance unitBalance),
    .call halfWeights, .call .startNewEpochLmp, .call .startNewEpochLmp,
    .call (.submitSnapshot { lmpSummary with traderMetrics := some twoMarkets } [(0, 7, 1, 0)]),
    .claimLmpRewards 2 0 lmpMarket, .claimLmpRewards 2 0 secondMarket]

-- Four units are configured, and the account claims eight.
theorem two_markets_exceed_budget :
    (∀ market ∈ twoMarkets.toList, State.Summed market) ∧
    ((Run.run lmpStep rewardsGenesis twoMarketsEpoch).lmpConfig 0).map (fun config =>
      config.totalLiquidityMiningRewards.toRat + config.totalTradingRewards.toRat) = some 4 ∧
    rewardsGenesis.world 7 .polkadex = 10 * unitBalance ∧
    (Run.run lmpStep rewardsGenesis twoMarketsEpoch).world 7 .polkadex = 2 * unitBalance ∧
    (Run.run lmpStep rewardsGenesis twoMarketsEpoch).world 2 .polkadex = 8 * unitBalance := by
  have hsum : ∀ market ∈ [(lmpMarket, soleTrader, (1, 1)), (secondMarket, soleTrader, (1, 1))],
      State.Summed market :=
    forall_mem_cons.mpr ⟨⟨by decide +kernel, by decide +kernel⟩,
      forall_mem_singleton.mpr ⟨by decide +kernel, by decide +kernel⟩⟩
  exact ⟨hsum, by decide +kernel, by decide +kernel, by decide +kernel, by decide +kernel⟩

end Mock

end Ocex
