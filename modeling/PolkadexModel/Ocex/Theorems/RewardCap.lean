import PolkadexModel.Lib.Ranking
import PolkadexModel.Ocex.Theorems.RewardBudget
import Mathlib.Data.Set.Card

open Function List

-- The number of accounts that get metrics for an epoch, against the number that is configured.
namespace Ocex

variable {Acc Auth W : Type} [Ord Acc] {cfg : Config}

-- What a counter admits which is used up after an element, and not before it.
section Counter

def admitted : ℕ → List ℕ → ℕ
  | _, [] => 0
  | c, n :: ns => min n (max 1 c) + admitted (c - n) ns

theorem le_admitted (c : ℕ) (ns : List ℕ) : min c ns.sum ≤ admitted c ns := by
  induction ns generalizing c with
  | nil => simp
  | cons n ns ih =>
    have hle := ih (c - n)
    rw [sum_cons, admitted]
    omega

-- Whatever is not empty begins before the counter is used up.
def BeginsInTime (c : ℕ) (ns : List ℕ) : Prop :=
  ∀ before n after, ns = before ++ n :: after → 0 < n → before.sum < c

theorem beginsInTime_cons : BeginsInTime c (n :: ns) ↔ (0 < n → 0 < c) ∧ BeginsInTime (c - n) ns := by
  constructor
  · refine fun h => ⟨h [] n ns rfl, fun before m after heq hpos => ?_⟩
    have hlt := h (n :: before) m after (by rw [heq, cons_append]) hpos
    rw [sum_cons] at hlt
    omega
  · rintro ⟨hfirst, hrest⟩ before m after heq hpos
    cases before with
    | nil =>
      obtain ⟨rfl, -⟩ := cons.inj heq
      exact hfirst hpos
    | cons k before =>
      obtain ⟨rfl, htail⟩ := cons.inj heq
      have hlt := hrest before m after htail hpos
      rw [sum_cons]
      omega

theorem admitted_iff (c : ℕ) (ns : List ℕ) :
    admitted c ns ≤ c ∧ (c ≤ ns.sum → admitted c ns = c) ↔ BeginsInTime c ns := by
  induction ns generalizing c with
  | nil => simp [admitted, BeginsInTime, eq_comm]
  | cons n ns ih =>
    have hle := le_admitted (c - n) ns
    rw [beginsInTime_cons, ← ih, sum_cons, admitted]
    omega

end Counter

namespace State

section Written

variable [DecidableEq Acc] {epoch : ℕ}

-- The keys which are written for the markets, one after the other.
def written (epoch : ℕ) : ℕ → List (Market Acc) → List (ℕ × TradingPair × Acc)
  | _, [] => []
  | c, (pair, scores, _) :: markets =>
    (scores.toList.take (max 1 c)).map (fun entry => (epoch, pair, entry.1)) ++
      written epoch (c - scores.toList.length) markets

omit [Ord Acc] in
theorem storeMetrics_counter (pair : TradingPair) (metrics : ℕ × TradingPair × Acc → Decimal × Decimal × Bool)
    (c : ℕ) (l : List (Acc × (Decimal × Decimal))) :
    (storeMetrics epoch pair metrics c l).2 = c - l.length := by
  induction l generalizing metrics c with
  | nil => rfl
  | cons entry l ih =>
    simp only [storeMetrics, length_cons]
    split_ifs with hc
    · omega
    · rw [ih]
      omega

omit [Ord Acc] in
theorem storeMetrics_of_not_mem (metrics : ℕ × TradingPair × Acc → Decimal × Decimal × Bool)
    (h : key ∉ (l.take (max 1 c)).map fun entry => (epoch, pair, entry.1)) :
    (storeMetrics epoch pair metrics c l).1 key = metrics key := by
  induction l generalizing metrics c with
  | nil => rfl
  | cons entry l ih =>
    have hmax : max 1 c = (c - 1) + 1 := by omega
    rw [hmax, take_succ_cons, map_cons, mem_cons, not_or] at h
    simp only [storeMetrics]
    split_ifs with hc
    · exact update_of_ne h.1 ..
    · have hmax' : max 1 (c - 1) = c - 1 := by omega
      rw [ih _ (by rw [hmax']; exact h.2)]
      exact update_of_ne h.1 ..

omit [Ord Acc] in
theorem storeMetrics_of_mem (metrics : ℕ × TradingPair × Acc → Decimal × Decimal × Bool)
    (h : key ∈ (l.take (max 1 c)).map fun entry => (epoch, pair, entry.1)) :
    ((storeMetrics epoch pair metrics c l).1 key).2.2 = false := by
  induction l generalizing metrics c with
  | nil => simp at h
  | cons entry l ih =>
    have hmax : max 1 c = (c - 1) + 1 := by omega
    rw [hmax, take_succ_cons, map_cons, mem_cons] at h
    simp only [storeMetrics]
    split_ifs with hc
    · rw [hc, take_zero, map_nil, or_iff_left not_mem_nil] at h
      simp only [h, update_self]
    · have hmax' : max 1 (c - 1) = c - 1 := by omega
      by_cases hmem : key ∈ (l.take (c - 1)).map fun entry => (epoch, pair, entry.1)
      · exact ih _ (by rw [hmax']; exact hmem)
      · rw [storeMetrics_of_not_mem _ (by rw [hmax']; exact hmem), h.resolve_right hmem, update_self]

theorem foldl_storeMarket_of_not_mem
    {acc : State Acc Auth W cfg × ℕ} (h : key ∉ written epoch acc.2 markets) :
    (markets.foldl (storeMarket epoch) acc).1.traderMetrics key = acc.1.traderMetrics key := by
  induction markets generalizing acc with
  | nil => rfl
  | cons market markets ih =>
    rw [written, mem_append, not_or] at h
    rw [foldl_cons, ih (by rw [storeMarket, storeMetrics_counter]; exact h.2)]
    exact storeMetrics_of_not_mem _ h.1

theorem foldl_storeMarket_of_mem {acc : State Acc Auth W cfg × ℕ} (h : key ∈ written epoch acc.2 markets) :
    ((markets.foldl (storeMarket epoch) acc).1.traderMetrics key).2.2 = false := by
  induction markets generalizing acc with
  | nil => cases h
  | cons market markets ih =>
    have hcounter : (storeMarket epoch acc market).2 = acc.2 - market.2.1.toList.length :=
      storeMetrics_counter ..
    by_cases hlater : key ∈ written epoch (acc.2 - market.2.1.toList.length) markets
    · exact ih (by rw [hcounter]; exact hlater)
    · rw [foldl_cons, foldl_storeMarket_of_not_mem (by rw [hcounter]; exact hlater)]
      rw [written, mem_append, or_iff_left hlater] at h
      exact storeMetrics_of_mem _ h

omit [DecidableEq Acc] in
theorem length_written (c : ℕ) (markets : List (Market Acc)) :
    (written epoch c markets).length = admitted c (markets.map (·.2.1.toList.length)) := by
  induction markets generalizing c with
  | nil => rfl
  | cons market markets ih =>
    rw [written, length_append, ih, length_map, length_take, map_cons, admitted, min_comm]

omit [DecidableEq Acc] in
theorem mem_written {markets : List (Market Acc)}
    (h : key ∈ written epoch c markets) : ∃ market ∈ markets, key.2.1 = market.1 := by
  induction markets generalizing c with
  | nil => cases h
  | cons market markets ih =>
    rw [written, mem_append] at h
    rcases h with h | h
    · obtain ⟨entry, -, rfl⟩ := mem_map.1 h
      exact ⟨market, mem_cons_self, rfl⟩
    · obtain ⟨market', hmem, heq⟩ := ih h
      exact ⟨market', mem_cons_of_mem _ hmem, heq⟩

omit [DecidableEq Acc] in
theorem nodup_written [Std.TransOrd Acc] [Std.LawfulEqOrd Acc] {markets : List (Market Acc)}
    (h : markets.Pairwise fun x y => x.1 ≠ y.1) : (written epoch c markets).Nodup := by
  induction markets generalizing c with
  | nil => exact nodup_nil
  | cons market markets ih =>
    obtain ⟨hne, h⟩ := pairwise_cons.1 h
    refine nodup_append.2 ⟨?accounts, ih h, ?markets⟩
    case accounts =>
      refine pairwise_map.2 (((Trees.distinct_toList market.2.1).sublist (take_sublist ..)).imp ?_)
      exact fun hne heq => hne (Prod.mk.inj (Prod.mk.inj heq).2).2
    case markets =>
      rintro key hkey key' hkey' rfl
      obtain ⟨entry, -, rfl⟩ := mem_map.1 hkey
      obtain ⟨market', hmem, heq⟩ := mem_written hkey'
      exact hne market' hmem heq

end Written

section Cap

variable [DecidableEq Acc]

-- The keys under which the finalisation stores metrics: those that can have another value before it.
def rewarded (s : State Acc Auth W cfg) (metrics : TradingPairMetricsMap Acc) :
    Set (ℕ × TradingPair × Acc) :=
  {key | ∃ before s', updateLmpScores { s with traderMetrics := before } metrics = .ok s' ∧
    s'.traderMetrics key ≠ before key}

variable {s : State Acc Auth W cfg} {epoch : ℕ} {config : LMPEpochConfig}

theorem exists_updateLmpScores (hf : s.finalizeLMPScore = some epoch) (hc : s.lmpConfig epoch = some config)
    (metrics : TradingPairMetricsMap Acc) : ∃ s', s.updateLmpScores metrics = .ok s' ∧ s'.traderMetrics =
      (metrics.toList.foldl (storeMarket epoch) (s, config.maxAccountsRewarded)).1.traderMetrics := by
  simp only [updateLmpScores, hf, hc, orElse, Option.elim_some, bind_eq_ok, pure_eq_ok]
  exact ⟨_, ⟨config, rfl, rfl⟩, rfl⟩

theorem rewarded_eq (hf : s.finalizeLMPScore = some epoch) (hc : s.lmpConfig epoch = some config)
    (metrics : TradingPairMetricsMap Acc) :
    s.rewarded metrics = {key | key ∈ written epoch config.maxAccountsRewarded metrics.toList} := by
  ext key
  constructor
  · rintro ⟨before, s', hs', hne⟩
    obtain ⟨s'', hs'', hmetrics⟩ := exists_updateLmpScores (s := { s with traderMetrics := before }) hf hc metrics
    cases hs'.symm.trans hs''
    by_contra hnot
    exact hne (by rw [hmetrics, foldl_storeMarket_of_not_mem hnot])
  · intro hmem
    -- What was claimed before is not claimed afterwards.
    obtain ⟨s', hs', hmetrics⟩ := exists_updateLmpScores (s := { s with traderMetrics := fun _ => (0, 0, true) })
      hf hc metrics
    refine ⟨_, s', hs', fun heq => ?_⟩
    have hfalse : (s'.traderMetrics key).2.2 = false := hmetrics ▸ foldl_storeMarket_of_mem hmem
    rw [heq] at hfalse
    cases hfalse

variable [Std.TransOrd Acc] [Std.LawfulEqOrd Acc]

theorem ncard_rewarded (hf : s.finalizeLMPScore = some epoch) (hc : s.lmpConfig epoch = some config)
    (metrics : TradingPairMetricsMap Acc) :
    (s.rewarded metrics).ncard = admitted config.maxAccountsRewarded (metrics.toList.map (·.2.1.size)) := by
  have hnodup : (written epoch config.maxAccountsRewarded metrics.toList).Nodup :=
    nodup_written (Trees.distinct_toList metrics)
  have hset : s.rewarded metrics = ↑(written epoch config.maxAccountsRewarded metrics.toList).toFinset := by
    rw [rewarded_eq hf hc]
    ext key
    simp
  rw [hset, Set.ncard_coe_finset, toFinset_card_of_nodup hnodup, length_written]
  simp only [Std.TreeMap.length_toList]

-- The cap holds exactly if every market with accounts begins before the cap is reached.
theorem rewarded_capped_iff (hf : s.finalizeLMPScore = some epoch) (hc : s.lmpConfig epoch = some config)
    (metrics : TradingPairMetricsMap Acc) :
    (s.rewarded metrics).ncard ≤ config.maxAccountsRewarded ∧
      (config.maxAccountsRewarded ≤ (metrics.toList.map (·.2.1.size)).sum →
        (s.rewarded metrics).ncard = config.maxAccountsRewarded) ↔
      BeginsInTime config.maxAccountsRewarded (metrics.toList.map (·.2.1.size)) := by
  rw [ncard_rewarded hf hc]
  exact admitted_iff ..

end Cap

end State

namespace Mock

def oneAccount : LMPEpochConfig :=
  { budget with maxAccountsRewarded := 1 }

def oneRewarded : State Account ℕ World config :=
  { dueEpoch with lmpConfig := fun _ => some oneAccount }

theorem oneRewarded_due : oneRewarded.finalizeLMPScore = some 0 :=
  rfl

theorem oneRewarded_lmpConfig : oneRewarded.lmpConfig 0 = some oneAccount :=
  rfl

theorem one_of_two_traders :
    (oneRewarded.rewarded oneMarket).ncard ≤ 1 ∧
      (1 ≤ (oneMarket.toList.map (·.2.1.size)).sum → (oneRewarded.rewarded oneMarket).ncard = 1) := by
  refine (State.rewarded_capped_iff oneRewarded_due oneRewarded_lmpConfig oneMarket).2 ?_
  have hsizes : oneMarket.toList.map (·.2.1.size) = [2] := rfl
  rw [hsizes, beginsInTime_cons]
  exact ⟨fun _ => by decide, fun before n after heq => by simp at heq⟩

-- The counter is used up after the first market, but one account of the second market is stored as well.
theorem two_rewarded :
    oneAccount.maxAccountsRewarded = 1 ∧ (oneRewarded.rewarded twoMarkets).ncard = 2 := by
  refine ⟨rfl, ?_⟩
  rw [State.ncard_rewarded oneRewarded_due oneRewarded_lmpConfig]
  decide +kernel

end Mock

-- The accounts with the highest scores of a market.
open Ranking (Representatives Selects rank)

namespace State

-- The score as a number, which does not depend on how it is written.
def lmpRating (s : State Acc Auth W cfg) (epoch : ℕ) (market : TradingPair) (sortedByMmScore : Bool)
    (main : Acc) : ℚ :=
  (s.lmpScore epoch market sortedByMmScore main).toRat

theorem topLmpAccounts_eq (s : State Acc Auth W cfg) (stored : RankedAccounts Acc) (epoch : ℕ)
    (market : TradingPair) (sortedByMmScore : Bool) (limit : ℕ) :
    s.topLmpAccounts stored epoch market sortedByMmScore limit =
      ((Ranking.table (s.lmpScore epoch market sortedByMmScore) stored.accounts).toList.map
        Prod.snd).reverse.take limit := by
  rw [topLmpAccounts]
  split_ifs with hlt
  · rfl
  · exact (List.take_of_length_le (not_lt.1 hlt)).symm

-- The accounts returned are the best ones exactly if no two accounts have a score which is higher than the last
-- one that is returned.
theorem topLmpAccounts_selects_iff (s : State Acc Auth W cfg) (stored : RankedAccounts Acc)
    (epoch : ℕ) (market : TradingPair) (sortedByMmScore : Bool) (limit : ℕ) :
    Selects (s.lmpRating epoch market sortedByMmScore) stored.accounts limit
        (s.topLmpAccounts stored epoch market sortedByMmScore limit) ↔
      ∀ a ∈ stored.accounts, ∀ b ∈ stored.accounts, a ≠ b →
        s.lmpRating epoch market sortedByMmScore a = s.lmpRating epoch market sortedByMmScore b →
        limit ≤ rank (s.lmpRating epoch market sortedByMmScore) stored.accounts
          (s.lmpRating epoch market sortedByMmScore a) := by
  rw [topLmpAccounts_eq]
  exact (Ranking.representatives_table (fun _ _ => Decimal.compare_eq _ _) _).selects_take_iff stored.nodup

end State

namespace Mock

def scored : State Account ℕ World config :=
  { State.genesis [1, 2, 3] fun _ _ => 0 with
    traderMetrics := fun key => if key.2.2 = 4 then (1, 1, false) else (two, 1, false) }

def scoredAccounts : State.RankedAccounts Account where
  accounts := [2, 3, 4]
  nodup := by decide

-- Of the two accounts with a score of two, only one is returned, and the lower score comes before the other.
theorem tied_account_lost :
    scored.topLmpAccounts scoredAccounts 1 ⟨.polkadex, .asset 1⟩ true 2 = [3, 4] ∧
    ¬Selects (scored.lmpRating 1 ⟨.polkadex, .asset 1⟩ true) scoredAccounts.accounts 2
      (scored.topLmpAccounts scoredAccounts 1 ⟨.polkadex, .asset 1⟩ true 2) := by
  have hres : scored.topLmpAccounts scoredAccounts 1 ⟨.polkadex, .asset 1⟩ true 2 = [3, 4] := by
    decide +kernel
  refine ⟨hres, fun hsel => ?_⟩
  rw [hres] at hsel
  have hle := hsel.left_out 2 (by decide) (by decide) 4 (by decide)
  revert hle
  decide +kernel

end Mock

end Ocex
