import PolkadexModel.Ocex.Pallet

-- The rewards of the liquidity mining, which the accounts claim after the scores of an epoch were
-- finalised.
namespace Ocex

-- The account that the rewards are paid from, and the transfer that may use it up.
class RewardsAccount (AccountId W : Type) where
  rewardsAccount : AccountId
  transferAllowDeath : W → AccountId → AccountId → ℕ → Except DispatchError W

variable {AccountId AuthorityId AuthoritySignature W : Type} [Ord AccountId] {cfg : Config}

namespace State

section Claims

variable [Decimal.Arith]

-- The part of a total, which is zero if the total is zero.
def portion (score total : Decimal) : Decimal :=
  (Decimal.Arith.checkedDiv score total).getD 0

-- The rewards of the configuration are those of a market. Its weight is not used.
def calculateLmpRewards (s : State AccountId AuthorityId W cfg) (main : AccountId) (epoch : ℕ)
    (market : TradingPair) (config : LMPEpochConfig) : Decimal × Decimal × Bool :=
  let (totalScore, totalFeesPaid) := s.totalScores (epoch, market)
  let (score, feesPaid, isClaimed) := s.traderMetrics (epoch, market, main)
  let mmRewards := config.totalLiquidityMiningRewards.saturatingMul (portion score totalScore)
  let tradingRewards := config.totalTradingRewards.saturatingMul (portion feesPaid totalFeesPaid)
  (mmRewards, tradingRewards, isClaimed)

variable [DecidableEq AccountId]

def setClaimed (s : State AccountId AuthorityId W cfg) (main : AccountId) (epoch : ℕ)
    (market : TradingPair) : State AccountId AuthorityId W cfg :=
  let (score, feesPaid, _) := s.traderMetrics (epoch, market, main)
  { s with
    traderMetrics := Function.update s.traderMetrics (epoch, market, main) (score, feesPaid, true) }

variable [RewardsAccount AccountId W]

def doClaimLmpRewards (s : State AccountId AuthorityId W cfg) (main : AccountId) (epoch : ℕ)
    (market : TradingPair) : Except DispatchError (State AccountId AuthorityId W cfg × ℕ) := do
  let claimBlk ← orElse .rewardsNotReady (s.lmpClaimBlk epoch)
  ensure (claimBlk ≤ s.currentBlockNumber) .rewardsNotReady
  let config ← orElse .lmpConfigNotFound (s.lmpConfig epoch)
  let (mmRewards, tradingRewards, isClaimed) := s.calculateLmpRewards main epoch market config
  ensure (!isClaimed) .rewardAlreadyClaimed
  let total ← inPlanck (mmRewards.saturatingAdd tradingRewards)
  let world ← RewardsAccount.transferAllowDeath s.world (RewardsAccount.rewardsAccount W) main total
  let s := { s with world := world }.setClaimed main epoch market
  return (s.depositEvent (.lmpRewardClaimed epoch main market total), total)

end Claims

section Ranking

-- The accounts with metrics for an epoch and a market, in the order in which they are iterated over.
structure RankedAccounts (AccountId : Type) where
  accounts : List AccountId
  nodup : accounts.Nodup

def lmpScore (s : State AccountId AuthorityId W cfg) (epoch : ℕ) (market : TradingPair) (sortedByMmScore : Bool)
    (main : AccountId) : Decimal :=
  let (mmScore, tradingScore, _) := s.traderMetrics (epoch, market, main)
  if sortedByMmScore then mmScore else tradingScore

-- The accounts are kept under their scores.
def topLmpAccounts (s : State AccountId AuthorityId W cfg) (stored : RankedAccounts AccountId) (epoch : ℕ)
    (market : TradingPair) (sortedByMmScore : Bool) (limit : ℕ) : List AccountId :=
  let byScore : Std.TreeMap Decimal AccountId := stored.accounts.foldl
    (fun byScore main => byScore.insert (s.lmpScore epoch market sortedByMmScore main) main) ∅
  let accounts := (byScore.toList.map Prod.snd).reverse
  if limit < accounts.length then accounts.take limit else accounts

end Ranking

end State

-- The calls of the pallet, with the claims of the rewards.
inductive LmpCall (AccountId AuthorityId AuthoritySignature : Type) [Ord AccountId]
  | call (call : Call AccountId AuthorityId AuthoritySignature)
  | claimLmpRewards (main : AccountId) (epoch : ℕ) (market : TradingPair)

variable [DecidableEq AccountId] [PalletAccounts AccountId] [Assets AccountId W]
  [CrossChainGadget AccountId W] [CrowdSourceLiquidityMining AccountId W] [RewardsAccount AccountId W]
  [Percent] [Authority AccountId AuthorityId AuthoritySignature] [Decimal.Arith]

def lmpDispatch (s : State AccountId AuthorityId W cfg) :
    LmpCall AccountId AuthorityId AuthoritySignature →
    Except DispatchError (State AccountId AuthorityId W cfg)
  | .call call => dispatch s call
  | .claimLmpRewards main epoch market => (s.doClaimLmpRewards main epoch market).map Prod.fst

def lmpStep (s : State AccountId AuthorityId W cfg)
    (c : LmpCall AccountId AuthorityId AuthoritySignature) : Option (State AccountId AuthorityId W cfg) :=
  (lmpDispatch s c).toOption

namespace Mock

instance : RewardsAccount Account World where
  rewardsAccount := 7
  transferAllowDeath world := transfer world .polkadex

end Mock

end Ocex
