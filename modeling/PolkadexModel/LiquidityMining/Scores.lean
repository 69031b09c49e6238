import PolkadexModel.LiquidityMining.Pallet

-- The scores of the liquidity providers, which the worker computes when an epoch has ended.
namespace LiquidityMining

open Ocex (TradingPair EgressMessages RewardsAccount)

-- The state of the chain, with the storage of the pallet that only the scores are computed from.
structure Scored (AccountId AuthorityId A : Type) [Ord AccountId] (cfg : Ocex.Config) where
  chain : Chain AccountId AuthorityId A cfg
  lpShares : ℕ → Std.TreeMap AccountId ℕ
  addLiquidityRecords : ℕ × AccountId × AccountId → List (ℕ × ℕ)
  -- The block in which the snapshot was requested.
  snapshotFlag : Option ℕ

variable {AccountId AuthorityId AuthoritySignature A : Type} [Ord AccountId] {cfg : Ocex.Config}

namespace Scored

def genesis (authorities : List AuthorityId) (assets : A) : Scored AccountId AuthorityId A cfg where
  chain := LiquidityMining.genesis authorities assets
  lpShares _ := ∅
  addLiquidityRecords _ := []
  snapshotFlag := none

section Records

variable [DecidableEq AccountId] [Decimal.Arith]

-- What `addLiquiditySuccess` notes of the shares that it has issued. The epoch and the account of the
-- pool are not changed by the messages before it.
def noteDeposit (s : Chain AccountId AuthorityId A cfg)
    (records : ℕ × AccountId × AccountId → List (ℕ × ℕ)) :
    EgressMessages AccountId → ℕ × AccountId × AccountId → List (ℕ × ℕ)
  | .addLiquidityResult market pool lp issuedShares _ _ =>
    match s.world.resolvePool market.pair pool, Storage.toBalance issuedShares with
    | .ok (_, config), .ok shares =>
      let key := (s.world.lmpEpoch, config.poolId, lp)
      Function.update records key (records key ++ [(s.currentBlockNumber, shares)])
    | _, _ => records
  | _ => records

def messagesOf : Call AccountId AuthorityId AuthoritySignature → List (EgressMessages AccountId)
  | .ocex (.call (.submitSnapshot summary _)) => summary.egressMessages
  | _ => []

-- The calls in which `newEpoch` is called.
def startsEpoch (s : Chain AccountId AuthorityId A cfg) :
    Call AccountId AuthorityId AuthoritySignature → Bool
  | .ocex (.call .startNewEpochLmp) => s.expectedLMPConfig.isSome
  | .ocex (.call .nextBlock) => s.expectedLMPConfig.isSome &&
    Word.saturatedInto 32 (s.currentBlockNumber + 1) % Ocex.epochLength == 0
  | _ => false

variable [Ocex.PalletAccounts AccountId] [Ocex.Assets AccountId A] [Ocex.CrossChainGadget AccountId A]
  [RewardsAccount AccountId A] [Fungibles AccountId A] [PoolAccounts AccountId] [Ocex.Percent]
  [Ocex.Authority AccountId AuthorityId AuthoritySignature]

-- The deposits are noted, and the flag is set by a new epoch and taken with the scores. There is no
-- call that writes the shares of the providers.
def step (t : Scored AccountId AuthorityId A cfg) (c : Call AccountId AuthorityId AuthoritySignature) :
    Option (Scored AccountId AuthorityId A cfg) :=
  (LiquidityMining.step t.chain c).map fun s => { t with
    chain := s
    addLiquidityRecords := (messagesOf c).foldl (noteDeposit t.chain) t.addLiquidityRecords
    snapshotFlag :=
      if !s.world.snapshotFlag then none
      else if startsEpoch t.chain c then some s.currentBlockNumber
      else some (t.snapshotFlag.getD s.currentBlockNumber) }

end Records

-- One deposit during the epoch. Its shares are not among those of the epochs before.
def scoreDeposit (endingBlk : ℕ) (acc : ℕ × ℕ) (deposit : ℕ × ℕ) : ℕ × ℕ :=
  (acc.1 - deposit.2,
    Word.saturatingAdd 128 acc.2 (Word.saturatingMul 128 deposit.2 (endingBlk - deposit.1)))

def scoreOf (endingBlk totalShares : ℕ) (deposits : List (ℕ × ℕ)) : ℕ :=
  let (rest, score) := deposits.foldl (scoreDeposit endingBlk) (totalShares, 0)
  Word.saturatingAdd 128 score (Word.saturatingMul 128 rest 201600)

-- The scores of the providers of a pool, and their sum.
def scoreProvider (t : Scored AccountId AuthorityId A cfg) (epoch endingBlk : ℕ) (pool : AccountId)
    (acc : Std.TreeMap AccountId (ℕ × Bool) × ℕ) (entry : AccountId × ℕ) :
    Std.TreeMap AccountId (ℕ × Bool) × ℕ :=
  let score := scoreOf endingBlk entry.2 (t.addLiquidityRecords (epoch, pool, entry.1))
  (acc.1.insert entry.1 (score, false), Word.saturatingAdd 128 acc.2 score)

def scorePool (t : Scored AccountId AuthorityId A cfg) (epoch endingBlk : ℕ)
    (config : MarketMakerConfig AccountId) : Std.TreeMap AccountId (ℕ × Bool) × ℕ :=
  (t.lpShares config.shareId).toList.foldl (t.scoreProvider epoch endingBlk config.poolId) (∅, 0)

-- The epoch that has ended.
def endedEpoch (t : Scored AccountId AuthorityId A cfg) : ℕ :=
  t.chain.world.lmpEpoch - 1

-- The pools are those of `keys`, in the order of the storage.
def takeSnapshot (t : Scored AccountId AuthorityId A cfg) (keys : List (TradingPair × AccountId)) :
    Option (LMPScoreSheet AccountId) :=
  t.snapshotFlag.map fun endingBlk => keys.filterMap fun key =>
    (t.chain.world.pools key).map fun config =>
      ((key.1, key.2, t.endedEpoch), t.scorePool t.endedEpoch endingBlk config)

end Scored

end LiquidityMining
