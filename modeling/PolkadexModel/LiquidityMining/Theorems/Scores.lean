import PolkadexModel.LiquidityMining.Scores
import PolkadexModel.LiquidityMining.Theorems.ForceClose

open Option

-- The scores are computed from the shares of the providers in a storage that nothing is written to.
namespace LiquidityMining.Scored

open Ocex (TradingPair RewardsAccount)

variable {Acc Auth AuthSign A : Type} [Ord Acc] [DecidableEq Acc]
  [Ocex.PalletAccounts Acc] [Ocex.Assets Acc A] [Ocex.CrossChainGadget Acc A]
  [RewardsAccount Acc A] [Fungibles Acc A] [PoolAccounts Acc] [Ocex.Percent]
  [Ocex.Authority Acc Auth AuthSign] [Decimal.Arith] {cfg : Ocex.Config}
  {t : Scored Acc Auth A cfg}

section Runs

theorem lpShares_run (t : Scored Acc Auth A cfg)
    (calls : List (Call Acc Auth AuthSign)) :
    (Run.run step t calls).lpShares = t.lpShares := by
  refine Run.foldl_frame lpShares (fun t c => ?_) t calls
  simp only [Run.exec, step]
  cases LiquidityMining.step t.chain c <;> rfl

end Runs

-- The shares that an account has in a pool when a block of the epoch ends.
def heldInBlock (epoch : ℕ) (config : MarketMakerConfig Acc) (lp : Acc)
    (t : Scored Acc Auth A cfg) : Call Acc Auth AuthSign → ℕ
  | .ocex (.call .nextBlock) =>
    if t.chain.world.lmpEpoch = epoch then sharesOf t.chain config lp else 0
  | _ => 0

-- The sheet after a run. The shares are weighted by the blocks of the epoch in which they were held.
def Right (t : Scored Acc Auth A cfg)
    (calls : List (Call Acc Auth AuthSign)) (sheet : LMPScoreSheet Acc)
    (market : TradingPair) (maker : Acc) (config : MarketMakerConfig Acc) : Prop :=
  ∃ (scores : Std.TreeMap Acc (ℕ × Bool) compare) (total : ℕ),
    ((market, maker, (Run.run step t calls).endedEpoch), scores, total) ∈ sheet ∧
    (∀ lp, 0 < sharesOf (Run.run step t calls).chain config lp → lp ∈ scores) ∧
    (∀ lp score claimed, scores[lp]? = some (score, claimed) →
      score = Run.total step (heldInBlock (Run.run step t calls).endedEpoch config lp) t calls) ∧
    total = (scores.toList.map fun e => e.2.1).sum

omit [DecidableEq Acc] [Ocex.PalletAccounts Acc] [Ocex.Assets Acc A]
  [Ocex.CrossChainGadget Acc A] [RewardsAccount Acc A] [Fungibles Acc A]
  [PoolAccounts Acc] [Ocex.Percent] [Decimal.Arith] in
theorem mem_takeSnapshot {keys : List (TradingPair × Acc)} {sheet : LMPScoreSheet Acc}
    (h : t.takeSnapshot keys = some sheet) {market : TradingPair} {maker : Acc} {epoch : ℕ}
    {scores : Std.TreeMap Acc (ℕ × Bool) compare × ℕ} :
    ((market, maker, epoch), scores) ∈ sheet ↔ (market, maker) ∈ keys ∧ epoch = t.endedEpoch ∧
      ∃ endingBlk config, t.snapshotFlag = some endingBlk ∧
        t.chain.world.pools (market, maker) = some config ∧
        scores = t.scorePool epoch endingBlk config := by
  obtain ⟨endingBlk, hflag, hsheet⟩ := map_eq_some_iff.mp h
  subst hsheet
  simp only [List.mem_filterMap, map_eq_some_iff, hflag, some.injEq, Prod.mk.injEq]
  constructor
  · rintro ⟨⟨market', maker'⟩, hk, config, hc, ⟨rfl, rfl, rfl⟩, rfl⟩
    exact ⟨hk, rfl, endingBlk, config, rfl, hc, rfl⟩
  · rintro ⟨hk, rfl, _, config, rfl, hc, rfl⟩
    exact ⟨(market, maker), hk, config, hc, ⟨rfl, rfl, rfl⟩, rfl⟩

theorem scorePool_eq (authorities : List Auth) (assets : A)
    (calls : List (Call Acc Auth AuthSign)) (epoch endingBlk : ℕ)
    (config : MarketMakerConfig Acc) :
    (Run.run step (genesis authorities assets : Scored Acc Auth A cfg) calls).scorePool epoch
      endingBlk config = (∅, 0) := by
  rw [scorePool, lpShares_run]
  rfl

theorem Right.sharesOf_eq_zero {calls : List (Call Acc Auth AuthSign)}
    (hsheet : (Run.run step (genesis authorities assets : Scored Acc Auth A cfg)
      calls).takeSnapshot keys = some sheet)
    (h : Right (genesis authorities assets : Scored Acc Auth A cfg) calls sheet market maker
      config) (lp : Acc) : sharesOf (Run.run step (genesis authorities assets : Scored Acc Auth A cfg)
      calls).chain config lp = 0 := by
  obtain ⟨scores, total, hmem, hall, _⟩ := h
  obtain ⟨_, _, _, _, _, _, hs⟩ := (mem_takeSnapshot hsheet).mp hmem
  rw [scorePool_eq, Prod.mk.injEq] at hs
  obtain ⟨rfl, rfl⟩ := hs
  by_contra hpos
  simpa using hall lp (Nat.pos_of_ne_zero hpos)

-- The sheet is right if and only if there are no shares.
theorem score_sheet_right_iff (authorities : List Auth) (assets : A)
    (calls : List (Call Acc Auth AuthSign))
    {keys : List (TradingPair × Acc)} {sheet : LMPScoreSheet Acc}
    (hkeys : ∀ key, key ∈ keys ↔ ((Run.run step (genesis authorities assets :
      Scored Acc Auth A cfg) calls).chain.world.pools key).isSome)
    (hsheet : (Run.run step (genesis authorities assets : Scored Acc Auth A cfg)
      calls).takeSnapshot keys = some sheet) :
    (∀ market maker config, (Run.run step (genesis authorities assets :
        Scored Acc Auth A cfg) calls).chain.world.pools (market, maker) = some config →
      Right (genesis authorities assets : Scored Acc Auth A cfg) calls sheet market maker
        config) ↔
    ∀ market maker config, (Run.run step (genesis authorities assets :
        Scored Acc Auth A cfg) calls).chain.world.pools (market, maker) = some config →
      ∀ lp, sharesOf (Run.run step (genesis authorities assets : Scored Acc Auth A cfg)
        calls).chain config lp = 0 := by
  refine forall₄_congr fun market maker config hc => ?_
  constructor
  case mp => exact fun h => h.sharesOf_eq_zero hsheet
  case mpr =>
    intro hnone
    obtain ⟨endingBlk, hflag, _⟩ := map_eq_some_iff.mp hsheet
    refine ⟨∅, 0, (mem_takeSnapshot hsheet).mpr ⟨(hkeys _).mpr (hc ▸ rfl), rfl, endingBlk, config, hflag,
      hc, (scorePool_eq ..).symm⟩, fun lp hpos => ?_, fun lp score claimed hs => ?_, rfl⟩
    · rw [hnone lp] at hpos
      cases hpos
    · cases (show none = some (score, claimed) from hs)

end LiquidityMining.Scored

namespace LiquidityMining.Mock

open Ocex.Mock (Account AuthSig config)

attribute [local instance] Decimal.HalfEven.arith Ocex.Mock.percent

-- A pool is opened in the first epoch, with a message about the shares of the account 3 or without it.
def epochCalls (messages : List (Ocex.EgressMessages Account)) : List (Call Account ℕ AuthSig) :=
  poolCalls 0 ++
    [.ocex (.call (.setLmpEpochConfig (some 0) (some 0) [⟨market, Ocex.unitBalance, 0, 0, 0, 0⟩] none none)),
    .ocex (.call .startNewEpochLmp),
    .ocex (.call (.submitSnapshot { prices with egressMessages := messages } [(0, 7, 1, 0)])),
    .ocex (.call .nextBlock), .ocex (.call .startNewEpochLmp)]

def epochEnded (messages : List (Ocex.EgressMessages Account)) : Scored Account ℕ Bank config :=
  Run.run Scored.step (.genesis [7] (bank [2, 3])) (epochCalls messages)

theorem pools_epochEnded : ∃ poolConfig, (epochEnded []).chain.world.pools =
    Function.update (fun _ => none) (market, 2) (some poolConfig) :=
  ⟨_, rfl⟩

-- Without shares, there is nothing to score.
theorem nobody_scored : ∃ sheet, (epochEnded []).takeSnapshot [(market, 2)] = some sheet ∧
    ∀ market maker poolConfig, (epochEnded []).chain.world.pools (market, maker) = some poolConfig →
      Scored.Right (.genesis [7] (bank [2, 3]) : Scored Account ℕ Bank config) (epochCalls []) sheet market
        maker poolConfig := by
  obtain ⟨poolConfig, hpools⟩ := pools_epochEnded
  have hsome : ((epochEnded []).takeSnapshot [(market, 2)]).isSome := by decide +kernel
  have hshare : ((epochEnded []).chain.world.pools (market, 2)).map MarketMakerConfig.shareId =
    some 106 := by decide +kernel
  obtain ⟨sheet, hsheet⟩ := isSome_iff_exists.mp hsome
  have hkeys (key : Ocex.TradingPair × Account) :
      key ∈ [(market, (2 : Account))] ↔ ((epochEnded []).chain.world.pools key).isSome := by
    rw [hpools, Function.update_apply, List.mem_singleton]
    split_ifs with h <;> simp [h]
  refine ⟨sheet, hsheet, (Scored.score_sheet_right_iff [7] (bank [2, 3]) (epochCalls []) hkeys hsheet).mpr ?_⟩
  intro market' maker config' hc lp
  have hkey := (hkeys (market', maker)).mpr (isSome_iff_exists.mpr ⟨config', hc⟩)
  rw [List.mem_singleton] at hkey
  have hid : config'.shareId = 106 := by
    have hc' : (epochEnded []).chain.world.pools (market, 2) = some config' := hkey ▸ hc
    rw [hc'] at hshare
    exact some.inj hshare
  rw [sharesOf, hid]
  revert lp
  decide +kernel

def issue : Ocex.EgressMessages Account :=
  .addLiquidityResult (.ofPair market.base market.quote) 6 3 1 1 1

-- It has them until the end of the epoch, but it is not scored.
theorem provider_not_scored :
    (epochEnded [issue]).addLiquidityRecords (1, 6, 3) = [(0, 10 ^ 12)] ∧
    ∃ sheet poolConfig, (epochEnded [issue]).takeSnapshot [(market, 2)] = some sheet ∧
      sheet.map (fun entry => (entry.1, entry.2.1.isEmpty, entry.2.2)) = [((market, 2, 1), true, 0)] ∧
      (epochEnded [issue]).chain.world.pools (market, 2) = some poolConfig ∧
      sharesOf (epochEnded [issue]).chain poolConfig 3 = 10 ^ 12 ∧
      ¬ Scored.Right (.genesis [7] (bank [2, 3]) : Scored Account ℕ Bank config) (epochCalls [issue]) sheet
        market 2 poolConfig := by
  have hsheet : ((epochEnded [issue]).takeSnapshot [(market, 2)]).map
      (List.map fun entry => (entry.1, entry.2.1.isEmpty, entry.2.2)) = some [((market, 2, 1), true, 0)] := by
    decide +kernel
  have hpool : ((epochEnded [issue]).chain.world.pools (market, 2)).map MarketMakerConfig.shareId =
    some 106 := by decide +kernel
  obtain ⟨sheet, hsheet, hentries⟩ := map_eq_some_iff.mp hsheet
  obtain ⟨poolConfig, hc, hid⟩ := map_eq_some_iff.mp hpool
  have hshares : sharesOf (epochEnded [issue]).chain poolConfig 3 = 10 ^ 12 := by
    rw [sharesOf, hid]
    decide +kernel
  refine ⟨by decide +kernel, sheet, poolConfig, hsheet, hentries, hc, hshares, fun h => ?_⟩
  exact absurd (hshares.symm.trans (h.sharesOf_eq_zero hsheet 3)) (by decide)

end LiquidityMining.Mock
