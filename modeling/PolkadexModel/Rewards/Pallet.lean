import PolkadexModel.Lib.Except
import PolkadexModel.PdexMigration.Pallet

open Function

-- The pallet that pays the rewards of the crowdloan.
namespace Rewards

open PdexMigration (LockIdentifier Balances)

def minRewardsClaimableAmount : ℕ :=
  10 ^ 12

def rewardsLockId : LockIdentifier :=
  "REWARDID"

-- The native currency. A transfer keeps the payer alive.
class NativeCurrency (AccountId : outParam Type) (B : Type) extends Balances AccountId B where
  transfer : B → AccountId → AccountId → ℕ → Option B

inductive ExchangePayloadAction
  | init
  | claim
deriving DecidableEq

structure ExchangePayload (AccountId : Type) where
  rewardId : ℕ
  action : ExchangePayloadAction
  user : AccountId

class Verify (AccountId : outParam Type) (Signature : Type) where
  verify : Signature → ExchangePayload AccountId → AccountId → Bool

-- The table of the rewards holds the total, the part that can be claimed initially, and the part for
-- each block.
structure Config (AccountId : Type) where
  palletAccount : AccountId
  rewardees : List (AccountId × ℕ × ℕ × ℕ)

inductive Error
  | duplicateId
  | invalidBlocksRange
  | invalidInitialPercentage
  | rewardIdNotRegister
  | userNotEligible
  | userHasNotInitializeClaimRewards
  | rewardsCannotBeUnlockYet
  | rewardsAlreadyInitialized
  | amountToLowtoInitializeRewards
deriving DecidableEq

inductive DispatchError
  | module (e : Error)
  | currency
  | invalidTransaction (code : ℕ)
deriving DecidableEq

def ensure (p : Prop) [Decidable p] (e : Error) : Except DispatchError Unit :=
  if p then .ok () else .error (.module e)

def orElse {α : Type} (e : Error) (a : Option α) : Except DispatchError α :=
  a.elim (.error (.module e)) .ok

def ensureValid (p : Prop) [Decidable p] (code : ℕ) : Except DispatchError Unit :=
  if p then .ok () else .error (.invalidTransaction code)

structure RewardInfo where
  startBlock : ℕ
  endBlock : ℕ
  initialPercentage : ℕ
deriving DecidableEq

structure RewardInfoForAccount where
  totalRewardAmount : ℕ
  claimAmount : ℕ
  isInitialRewardsClaimed : Bool
  isInitialized : Bool
  lockId : LockIdentifier
  lastBlockRewardsClaim : ℕ
  initialRewardsClaimable : ℕ
  factor : ℕ
deriving DecidableEq

structure RewardsInfoByAccount where
  claimed : ℕ
  unclaimed : ℕ
  claimable : ℕ
deriving DecidableEq

inductive Event (AccountId : Type)
  | rewardCycleCreated (startBlock endBlock rewardId : ℕ)
  | userUnlockedReward (user : AccountId) (rewardId : ℕ)
  | userClaimedReward (user : AccountId) (rewardId claimed : ℕ)
deriving DecidableEq

structure State (AccountId B : Type) (cfg : Config AccountId) where
  initializeRewards : ℕ → Option RewardInfo
  distributor : ℕ → AccountId → Option RewardInfoForAccount
  blockNumber : ℕ
  currency : B
  events : List (Event AccountId)

variable {AccountId Signature B : Type} {cfg : Config AccountId}

-- What the account has earned by the crowdloan.
def Config.rewards [DecidableEq AccountId] (cfg : Config AccountId) (user : AccountId) : Option (ℕ × ℕ × ℕ) :=
  (cfg.rewardees.find? (·.1 = user)).map Prod.snd

namespace State

def genesis (currency : B) : State AccountId B cfg where
  initializeRewards _ := none
  distributor _ _ := none
  blockNumber := 0
  currency := currency
  events := []

def depositEvent (s : State AccountId B cfg) (e : Event AccountId) : State AccountId B cfg :=
  { s with events := s.events ++ [e] }

def createRewardCycle (s : State AccountId B cfg) (startBlock endBlock initialPercentage rewardId : ℕ) :
    Except DispatchError (State AccountId B cfg) := do
  ensure (s.initializeRewards rewardId = none) .duplicateId
  ensure (startBlock < endBlock) .invalidBlocksRange
  ensure (initialPercentage ≤ 100 ∧ 0 < initialPercentage) .invalidInitialPercentage
  let s := { s with
    initializeRewards := update s.initializeRewards rewardId
      (some ⟨startBlock, endBlock, initialPercentage⟩) }
  return s.depositEvent (.rewardCycleCreated startBlock endBlock rewardId)

def accountInfo (s : State AccountId B cfg) (account : AccountId) (rewardId : ℕ) :
    Except DispatchError RewardsInfoByAccount := do
  let userRewardInfo ← orElse .userNotEligible (s.distributor rewardId account)
  let rewardInfo ← orElse .userNotEligible (s.initializeRewards rewardId)
  let initial := if userRewardInfo.isInitialRewardsClaimed then 0 else userRewardInfo.initialRewardsClaimable
  let unclaimedBlocks := min s.blockNumber rewardInfo.endBlock - userRewardInfo.lastBlockRewardsClaim
  let claimable := Word.saturatingAdd 128 initial (Word.saturatingMul 128 userRewardInfo.factor unclaimedBlocks)
  return {
    claimed := userRewardInfo.claimAmount
    unclaimed := userRewardInfo.totalRewardAmount - userRewardInfo.claimAmount
    claimable }

section Storage

variable [DecidableEq AccountId]

def insertReward (s : State AccountId B cfg) (rewardId : ℕ) (user : AccountId) (info : RewardInfoForAccount) :
    State AccountId B cfg :=
  { s with
    distributor := update s.distributor rewardId
      (update (s.distributor rewardId) user (some info)) }

variable [NativeCurrency AccountId B]

-- The difference is unlocked in any block, since the end block is taken to be over.
def doClaim (s : State AccountId B cfg) (user : AccountId) (rewardId : ℕ) :
    Except DispatchError (State AccountId B cfg) := do
  let _ ← orElse .rewardIdNotRegister (s.initializeRewards rewardId)
  let info ← orElse .userNotEligible (s.distributor rewardId user)
  ensure info.isInitialized .userHasNotInitializeClaimRewards
  let initial := if info.isInitialRewardsClaimed then 0 else info.initialRewardsClaimable
  let claimable := Word.saturatingAdd 128 initial (info.totalRewardAmount - info.claimAmount)
  let s := { s with currency := Balances.removeLock s.currency info.lockId user }
  let s := s.insertReward rewardId user { info with
    lastBlockRewardsClaim := s.blockNumber
    isInitialRewardsClaimed := true
    claimAmount := info.totalRewardAmount }
  return s.depositEvent (.userClaimedReward user rewardId claimable)

def transferPdexRewards (s : State AccountId B cfg) (payer payee : AccountId) (amount : ℕ) :
    Except DispatchError (State AccountId B cfg) :=
  (NativeCurrency.transfer s.currency payer payee amount).elim (.error .currency)
    fun currency => .ok { s with currency }

def doInitializeClaimRewards (s : State AccountId B cfg) (user : AccountId) (rewardId : ℕ) :
    Except DispatchError (State AccountId B cfg) := do
  let cycle ← orElse .rewardIdNotRegister (s.initializeRewards rewardId)
  ensure (cycle.startBlock ≤ s.blockNumber) .rewardsCannotBeUnlockYet
  ensure (s.distributor rewardId user = none) .rewardsAlreadyInitialized
  let (total, initial, factor) ← orElse .userNotEligible (cfg.rewards user)
  ensure (minRewardsClaimableAmount < total) .amountToLowtoInitializeRewards
  let s ← s.transferPdexRewards cfg.palletAccount user total
  let s := { s with currency := Balances.setLock s.currency rewardsLockId user total }
  let s := s.insertReward rewardId user {
    totalRewardAmount := total
    claimAmount := 0
    isInitialRewardsClaimed := false
    isInitialized := true
    lockId := rewardsLockId
    lastBlockRewardsClaim := cycle.startBlock
    initialRewardsClaimable := initial
    factor := factor }
  return s.depositEvent (.userUnlockedReward user rewardId)

end Storage

section Unsigned

variable [Verify AccountId Signature]

def validateUnsignedClaim (s : State AccountId B cfg) (payload : ExchangePayload AccountId)
    (signature : Signature) : Except DispatchError Unit := do
  let info ← (s.distributor payload.rewardId payload.user).elim (.error (.invalidTransaction 1)) .ok
  ensureValid (10 ^ 12 ≤ info.totalRewardAmount - info.claimAmount) 2
  ensureValid (Verify.verify signature payload payload.user) 3

def validateUnsignedInitializeClaimRewards [DecidableEq AccountId] (cfg : Config AccountId)
    (payload : ExchangePayload AccountId) (signature : Signature) : Except DispatchError Unit := do
  ensureValid (Verify.verify signature payload payload.user) 2
  ensureValid (cfg.rewardees.any (·.1 = payload.user)) 4

end Unsigned

end State

inductive Call (AccountId Signature : Type)
  | createRewardCycle (startBlock endBlock initialPercentage rewardId : ℕ)
  | initializeClaimRewards (user : AccountId) (rewardId : ℕ)
  | claim (user : AccountId) (rewardId : ℕ)
  | unsignedInitializeClaimRewards (payload : ExchangePayload AccountId) (signature : Signature)
  | unsignedClaim (payload : ExchangePayload AccountId) (signature : Signature)
  | nextBlock

variable [DecidableEq AccountId] [NativeCurrency AccountId B] [Verify AccountId Signature]

def dispatch (s : State AccountId B cfg) :
    Call AccountId Signature → Except DispatchError (State AccountId B cfg)
  | .createRewardCycle startBlock endBlock initialPercentage rewardId =>
    s.createRewardCycle startBlock endBlock initialPercentage rewardId
  | .initializeClaimRewards user rewardId => s.doInitializeClaimRewards user rewardId
  | .claim user rewardId => s.doClaim user rewardId
  | .unsignedInitializeClaimRewards payload signature => do
    State.validateUnsignedInitializeClaimRewards cfg payload signature
    s.doInitializeClaimRewards payload.user payload.rewardId
  | .unsignedClaim payload signature => do
    s.validateUnsignedClaim payload signature
    s.doClaim payload.user payload.rewardId
  | .nextBlock => .ok { s with blockNumber := s.blockNumber + 1 }

-- A call of the pallet, or a change of the currency by the rest of the chain.
inductive Move (AccountId Signature B : Type)
  | call (c : Call AccountId Signature)
  | others (currency : B)

def step (s : State AccountId B cfg) : Move AccountId Signature B → Option (State AccountId B cfg)
  | .call c          => (dispatch s c).toOption
  | .others currency => some { s with currency }

end Rewards
