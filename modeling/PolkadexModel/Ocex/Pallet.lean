import PolkadexModel.Lib.Run
import PolkadexModel.Lib.Except
import PolkadexModel.Ocex.Settlement

open Function

namespace Ocex

inductive Error
  | failedToConvertDecimaltoBalance
  | tradingPairIsNotClosed
  | mainAccountAlreadyRegistered
  | proxyAlreadyRegistered
  | mainAccountNotFound
  | proxyLimitExceeded
  | tradingPairAlreadyRegistered
  | bothAssetsCannotBeSame
  | tradingPairNotFound
  | amountOverflow
  | proxyNotFound
  | minimumOneProxyRequired
  | tradingPairNotRegistered
  | tradingPairConfigCannotBeZero
  | allowlistedTokenLimitReached
  | tokenNotAllowlisted
  | tradingPairConfigUnderflow
  | exchangeNotOperational
  | invalidWithdrawalIndex
  | invalidMarketWeightage
  | lmpConfigNotFound
  | invalidLMPConfig
  | baseNotAllowlisted
  | quoteNotAllowlisted
  | minVolGreaterThanMaxVolume
  | withdrawalFeeBurnFailed
  | tradingFeesBurnFailed
  | ingressQueueFull
  | depositAmountTooLow
  | tooManyEgressMessages
  | invalidEgressPoolId
  | rewardsNotReady
  | rewardAlreadyClaimed
deriving DecidableEq

inductive DispatchError
  | module (error : Error)
  -- An error of another pallet.
  | other (message : String)
  | panic (message : String)
  -- An unsigned transaction which is refused before it is dispatched.
  | invalidTransaction (code : ℕ)
deriving DecidableEq

-- A dispatchable continues only if a condition holds.
def ensure (p : Prop) [Decidable p] (e : Error) : Except DispatchError Unit :=
  if p then .ok () else .error (.module e)

def orElse {α : Type} (e : Error) (a : Option α) : Except DispatchError α :=
  a.elim (.error (.module e)) .ok

-- The native currency and the other assets. `W` is the storage of the other pallets: a call that
-- fails does not change it.
class Assets (AccountId W : Type) where
  transferNative  : W → AccountId → AccountId → ℕ → Except DispatchError W
  transferOther   : W → ℕ → AccountId → AccountId → ℕ → Except DispatchError W
  burnNative      : W → AccountId → ℕ → Option W
  reducibleNative : W → AccountId → ℕ

def Assets.transfer {AccountId W : Type} [Assets AccountId W] (world : W) (payer payee : AccountId)
    (amount : ℕ) : AssetId → Except DispatchError W
  | .polkadex => transferNative world payer payee amount
  | .asset id => transferOther world id payer payee amount

class CrossChainGadget (AccountId W : Type) where
  parachainWithdraw : W → AccountId → AssetId → ℕ → ℕ → Option AssetId → Option ℕ → ℕ →
    Except DispatchError W

class CrowdSourceLiquidityMining (AccountId W : Type) where
  isValidPoolId         : W → AccountId → Bool
  newEpoch              : W → ℕ → W
  addLiquiditySuccess   : W → TradingPair → AccountId → AccountId → Decimal → Decimal → Decimal →
    Except DispatchError W
  removeLiquiditySuccess : W → TradingPair → AccountId → AccountId → Decimal → Decimal →
    Except DispatchError W
  removeLiquidityFailed : W → TradingPair → AccountId → AccountId → Decimal → Decimal → Decimal →
    Decimal → Decimal → Decimal → Except DispatchError W
  poolForceCloseSuccess : W → TradingPair → AccountId → Decimal → Decimal → Except DispatchError W
  stopAcceptingLmpWithdrawals : W → ℕ → W

-- A part of a number, in percent. It is rounded to the nearest number, and down in the middle of two.
class Percent where
  mul : ℕ → ℕ → ℕ
  mul_nearest : ∀ p n, p * n ≤ 100 * mul p n + 50 ∧ 100 * mul p n < p * n + 50

-- The keys of the authorities. A signature is made on an encoded summary.
class Authority (AccountId AuthorityId AuthoritySignature : Type) [Ord AccountId] where
  verify : AuthoritySignature → SnapshotSummary AccountId → AuthorityId → Bool

structure Config where
  obWithdrawalLimit : ℕ
  obIngressLimit : ℕ
  minimumDeposit : ℕ
  maxEgressMessages : ℕ

def proxyLimit : ℕ := 3

def allowlistedTokenLimit : ℕ := 50

def depositMax : ℕ := 1_000_000_000_000_000_000_000_000_000

def tradeOperationMinValue : ℕ := 10000

def epochLength : ℕ := 201600

structure AccountInfo (AccountId : Type) where
  mainAccount : AccountId
  proxies : BoundedVec AccountId proxyLimit

structure FeeDistribution (AccountId : Type) where
  recipientAddress : AccountId
  auctionDuration : ℕ
  burnRation : ℕ

inductive Event (AccountId : Type)
  | snapshotProcessed (id : ℕ)
  | mainAccountRegistered (main proxy : AccountId)
  | tradingPairRegistered (base quote : AssetId)
  | tradingPairUpdated (base quote : AssetId)
  | depositSuccessful (id : ℕ) (user : AccountId) (asset : AssetId) (amount : ℕ)
  | shutdownTradingPair (pair : TradingPairConfig)
  | openTradingPair (pair : TradingPairConfig)
  | withdrawalClaimed (snapshotId : ℕ) (main : AccountId) (withdrawals : List (Withdrawal AccountId))
  | newProxyAdded (main proxy : AccountId)
  | proxyRemoved (main proxy : AccountId)
  | tokenAllowlisted (token : AssetId)
  | allowlistedTokenRemoved (token : AssetId)
  | withdrawalReady (snapshotId : ℕ) (withdrawal : Withdrawal AccountId)
  | exchangeStateUpdated (state : Bool)
  | orderbookOperatorKeyWhitelisted (key : ℕ)
  | tradingFeesBurned (asset : AssetId) (amount : ℕ)
  | lmpScoresUpdated (epoch : ℕ)
  | lmpRewardClaimed (epoch : ℕ) (main : AccountId) (market : TradingPair) (reward : ℕ)
deriving DecidableEq

abbrev WithdrawalsMap (AccountId : Type) [Ord AccountId] :=
  Std.TreeMap AccountId (List (Withdrawal AccountId))

structure State (AccountId AuthorityId W : Type) [Ord AccountId] (cfg : Config) where
  allowlistedToken : Std.TreeSet AssetId
  accounts : AccountId → Option (AccountInfo AccountId)
  proxies : AccountId → Option AccountId
  tradingPairs : TradingPair → Option TradingPairConfig
  snapshots : ℕ → Option (SnapshotSummary AccountId)
  snapshotNonce : ℕ
  exchangeState : Bool
  withdrawals : ℕ → Option (WithdrawalsMap AccountId)
  ingressMessages : ℕ → BoundedVec (IngressMessages AccountId) cfg.obIngressLimit
  totalAssets : AssetId → Decimal
  authorities : ℕ → List AuthorityId
  nextAuthorities : List AuthorityId
  validatorSetId : ℕ
  orderbookOperatorPublicKey : Option ℕ
  lmpEpoch : ℕ
  traderMetrics : ℕ × TradingPair × AccountId → Decimal × Decimal × Bool
  totalScores : ℕ × TradingPair → Decimal × Decimal
  finalizeLMPScore : Option ℕ
  lmpConfig : ℕ → Option LMPEpochConfig
  expectedLMPConfig : Option LMPEpochConfig
  lmpClaimBlk : ℕ → Option ℕ
  priceOracle : Std.TreeMap TradingPair (Decimal × Decimal)
  feeDistributionConfig : Option (FeeDistribution AccountId)
  currentBlockNumber : ℕ
  world : W
  events : List (Event AccountId)

variable {AccountId AuthorityId AuthoritySignature W : Type} [Ord AccountId] {cfg : Config}

namespace State

-- The state after `on_genesis_session` on an empty storage.
def genesis (authorities : List AuthorityId) (world : W) : State AccountId AuthorityId W cfg where
  allowlistedToken := ∅
  accounts _ := none
  proxies _ := none
  tradingPairs _ := none
  snapshots _ := none
  snapshotNonce := 0
  exchangeState := false
  withdrawals _ := none
  ingressMessages _ := default
  totalAssets _ := 0
  authorities id := if id = 0 then authorities else []
  nextAuthorities := []
  validatorSetId := 0
  orderbookOperatorPublicKey := none
  lmpEpoch := 0
  traderMetrics _ := (0, 0, false)
  totalScores _ := (0, 0)
  finalizeLMPScore := none
  lmpConfig _ := none
  expectedLMPConfig := none
  lmpClaimBlk _ := none
  priceOracle := ∅
  feeDistributionConfig := none
  currentBlockNumber := 0
  world := world
  events := []

def depositEvent (s : State AccountId AuthorityId W cfg) (e : Event AccountId) :
    State AccountId AuthorityId W cfg :=
  { s with events := s.events ++ [e] }

-- Queues a message for the engine, in the block `n`.
def pushIngressAt (s : State AccountId AuthorityId W cfg) (n : ℕ)
    (message : IngressMessages AccountId) : Option (State AccountId AuthorityId W cfg) :=
  ((s.ingressMessages n).tryPush message).map fun messages =>
    { s with ingressMessages := update s.ingressMessages n messages }

def pushIngress (s : State AccountId AuthorityId W cfg) (message : IngressMessages AccountId) :
    Except DispatchError (State AccountId AuthorityId W cfg) :=
  orElse .ingressQueueFull (s.pushIngressAt s.currentBlockNumber message)

section Registry

variable [DecidableEq AccountId]

def registerUser (s : State AccountId AuthorityId W cfg) (main proxy : AccountId) :
    Except DispatchError (State AccountId AuthorityId W cfg) := do
  ensure s.exchangeState .exchangeNotOperational
  ensure (s.accounts main = none) .mainAccountAlreadyRegistered
  ensure (s.proxies proxy = none) .proxyAlreadyRegistered
  let proxies ← orElse .proxyLimitExceeded
    ((default : BoundedVec AccountId proxyLimit).tryPush proxy)
  let s := { s with accounts := update s.accounts main (some ⟨main, proxies⟩) }
  let s ← s.pushIngress (.registerUser main proxy)
  let s := { s with proxies := update s.proxies proxy (some main) }
  return s.depositEvent (.mainAccountRegistered main proxy)

def addProxyAccount (s : State AccountId AuthorityId W cfg) (main proxy : AccountId) :
    Except DispatchError (State AccountId AuthorityId W cfg) := do
  ensure s.exchangeState .exchangeNotOperational
  let info ← orElse .mainAccountNotFound (s.accounts main)
  ensure (s.proxies proxy = none) .proxyAlreadyRegistered
  let proxies ← orElse .proxyLimitExceeded (info.proxies.tryPush proxy)
  let s ← s.pushIngress (.addProxy main proxy)
  let s := { s with
    accounts := update s.accounts main (some { info with proxies := proxies })
    proxies := update s.proxies proxy (some main) }
  return s.depositEvent (.newProxyAdded main proxy)

def removeProxyAccount (s : State AccountId AuthorityId W cfg) (main proxy : AccountId) :
    Except DispatchError (State AccountId AuthorityId W cfg) := do
  ensure s.exchangeState .exchangeNotOperational
  let info ← orElse .mainAccountNotFound (s.accounts main)
  ensure (1 < info.proxies.toList.length) .minimumOneProxyRequired
  ensure (proxy ∈ info.proxies.toList) .proxyNotFound
  let proxies : BoundedVec AccountId proxyLimit :=
    ⟨info.proxies.toList.erase proxy, List.length_erase_le.trans info.proxies.length_le⟩
  let s ← s.pushIngress (.removeProxy main proxy)
  let s := { s with
    accounts := update s.accounts main (some { info with proxies := proxies })
    proxies := update s.proxies proxy none }
  return s.depositEvent (.proxyRemoved main proxy)

end Registry

section TradingPairs

-- The pair is opened or closed for trading.
def setOperationalStatus (s : State AccountId AuthorityId W cfg) (base quote : AssetId)
    (status : Bool) (message : TradingPairConfig → IngressMessages AccountId)
    (event : TradingPairConfig → Event AccountId) :
    Except DispatchError (State AccountId AuthorityId W cfg) := do
  ensure s.exchangeState .exchangeNotOperational
  ensure (base ≠ quote) .bothAssetsCannotBeSame
  let config ← orElse .tradingPairNotFound (s.tradingPairs ⟨base, quote⟩)
  let config := { config with operationalStatus := status }
  let s := { s with tradingPairs := update s.tradingPairs ⟨base, quote⟩ (some config) }
  let s ← s.pushIngress (message config)
  return s.depositEvent (event config)

def closeTradingPair (s : State AccountId AuthorityId W cfg) (base quote : AssetId) :
    Except DispatchError (State AccountId AuthorityId W cfg) :=
  s.setOperationalStatus base quote false .closeTradingPair .shutdownTradingPair

def openTradingPair (s : State AccountId AuthorityId W cfg) (base quote : AssetId) :
    Except DispatchError (State AccountId AuthorityId W cfg) :=
  s.setOperationalStatus base quote true .openTradingPair .openTradingPair

def validateTradingPairConfig (minVolume maxVolume priceTickSize qtyStepSize : ℕ) :
    Except DispatchError Unit := do
  ensure (0 < minVolume ∧ 0 < maxVolume ∧ 0 < priceTickSize ∧ 0 < qtyStepSize)
    .tradingPairConfigCannotBeZero
  ensure (minVolume ≤ depositMax ∧ maxVolume ≤ depositMax ∧ priceTickSize ≤ depositMax ∧
    qtyStepSize ≤ depositMax) .amountOverflow
  ensure (tradeOperationMinValue ≤ minVolume ∧ tradeOperationMinValue < maxVolume)
    .tradingPairConfigUnderflow
  ensure (minVolume < maxVolume) .minVolGreaterThanMaxVolume

variable [Decimal.Arith]

-- The conversion of a number of 128 bits, which aborts if it does not fit.
def decimalFrom (n : ℕ) : Except DispatchError Decimal :=
  (Decimal.ofNat? n).elim (.error (.panic "Number exceeds maximum value that can be represented.")) .ok

-- An amount of the smallest denomination, in units.
def inUnits (e : Error) (n : ℕ) : Except DispatchError Decimal := do
  orElse e (Decimal.Arith.checkedDiv (← decimalFrom n) unitDecimal)

def registerTradingPair (s : State AccountId AuthorityId W cfg) (base quote : AssetId)
    (minVolume maxVolume priceTickSize qtyStepSize : ℕ) :
    Except DispatchError (State AccountId AuthorityId W cfg) := do
  ensure s.exchangeState .exchangeNotOperational
  ensure (base ≠ quote) .bothAssetsCannotBeSame
  ensure (s.tradingPairs ⟨base, quote⟩ = none) .tradingPairAlreadyRegistered
  ensure (s.tradingPairs ⟨quote, base⟩ = none) .tradingPairAlreadyRegistered
  validateTradingPairConfig minVolume maxVolume priceTickSize qtyStepSize
  ensure (base ∈ s.allowlistedToken) .baseNotAllowlisted
  ensure (quote ∈ s.allowlistedToken) .quoteNotAllowlisted
  let minVolume ← inUnits .tradingPairConfigUnderflow minVolume
  let maxVolume ← inUnits .tradingPairConfigUnderflow maxVolume
  let priceTickSize ← inUnits .tradingPairConfigUnderflow priceTickSize
  let qtyStepSize ← inUnits .tradingPairConfigUnderflow qtyStepSize
  let config := {
    baseAsset := base
    quoteAsset := quote
    minVolume, maxVolume, priceTickSize, qtyStepSize
    operationalStatus := true
    baseAssetPrecision := qtyStepSize.scale
    quoteAssetPrecision := priceTickSize.scale }
  let s := { s with tradingPairs := update s.tradingPairs ⟨base, quote⟩ (some config) }
  let s ← s.pushIngress (.openTradingPair config)
  return s.depositEvent (.tradingPairRegistered base quote)

-- The two precisions are the other way around than in the registration.
def updateTradingPair (s : State AccountId AuthorityId W cfg) (base quote : AssetId)
    (minVolume maxVolume priceTickSize qtyStepSize : ℕ) :
    Except DispatchError (State AccountId AuthorityId W cfg) := do
  ensure s.exchangeState .exchangeNotOperational
  ensure (base ≠ quote) .bothAssetsCannotBeSame
  let old ← orElse .tradingPairNotRegistered (s.tradingPairs ⟨base, quote⟩)
  ensure (!old.operationalStatus) .tradingPairIsNotClosed
  validateTradingPairConfig minVolume maxVolume priceTickSize qtyStepSize
  let minVolume ← inUnits .tradingPairConfigUnderflow minVolume
  let maxVolume ← inUnits .tradingPairConfigUnderflow maxVolume
  let priceTickSize ← inUnits .tradingPairConfigUnderflow priceTickSize
  let qtyStepSize ← inUnits .tradingPairConfigUnderflow qtyStepSize
  let config := {
    baseAsset := base
    quoteAsset := quote
    minVolume, maxVolume, priceTickSize, qtyStepSize
    operationalStatus := true
    baseAssetPrecision := priceTickSize.scale
    quoteAssetPrecision := qtyStepSize.scale }
  let s := { s with tradingPairs := update s.tradingPairs ⟨base, quote⟩ (some config) }
  let s ← s.pushIngress (.updateTradingPair config)
  return s.depositEvent (.tradingPairUpdated base quote)

end TradingPairs

-- The settings that only governance changes.
section Governance

def setSnapshot (s : State AccountId AuthorityId W cfg) (newSnapshotId : ℕ) :
    State AccountId AuthorityId W cfg :=
  { s with snapshotNonce := newSnapshotId }

def setExchangeState (s : State AccountId AuthorityId W cfg) (state : Bool) :
    Except DispatchError (State AccountId AuthorityId W cfg) := do
  let s ← { s with exchangeState := state }.pushIngress (.setExchangeState state)
  return s.depositEvent (.exchangeStateUpdated state)

def allowlistToken (s : State AccountId AuthorityId W cfg) (token : AssetId) :
    Except DispatchError (State AccountId AuthorityId W cfg) := do
  let tokens := s.allowlistedToken.insert token
  ensure (tokens.size ≤ allowlistedTokenLimit) .allowlistedTokenLimitReached
  return { s with allowlistedToken := tokens }.depositEvent (.tokenAllowlisted token)

def removeAllowlistedToken (s : State AccountId AuthorityId W cfg) (token : AssetId) :
    State AccountId AuthorityId W cfg :=
  { s with allowlistedToken := s.allowlistedToken.erase token }
    |>.depositEvent (.allowlistedTokenRemoved token)

def whitelistOrderbookOperator (s : State AccountId AuthorityId W cfg) (key : ℕ) :
    State AccountId AuthorityId W cfg :=
  { s with orderbookOperatorPublicKey := some key }
    |>.depositEvent (.orderbookOperatorKeyWhitelisted key)

def setFeeDistribution (s : State AccountId AuthorityId W cfg)
    (distribution : FeeDistribution AccountId) : State AccountId AuthorityId W cfg :=
  { s with feeDistributionConfig := some distribution }

-- The summary is stored, but nothing in it is executed.
def forceSubmitSnapshot (s : State AccountId AuthorityId W cfg)
    (summary : SnapshotSummary AccountId) : State AccountId AuthorityId W cfg :=
  { s with
    snapshotNonce := summary.snapshotId
    snapshots := update s.snapshots summary.snapshotId (some summary) }
    |>.depositEvent (.snapshotProcessed summary.snapshotId)

end Governance

section Session

def onNewSession (s : State AccountId AuthorityId W cfg) (authorities queued : List AuthorityId) :
    State AccountId AuthorityId W cfg :=
  { s with
    authorities := update s.authorities (s.validatorSetId + 1) authorities
    nextAuthorities := queued
    validatorSetId := s.validatorSetId + 1 }

variable [CrowdSourceLiquidityMining AccountId W]

-- If there is no space for the two messages, then none of them is queued.
def pushEpoch (s : State AccountId AuthorityId W cfg) (n epoch : ℕ) (config : LMPEpochConfig) :
    State AccountId AuthorityId W cfg :=
  ((s.pushIngressAt n (.newLMPEpoch epoch)).bind (·.pushIngressAt n (.lmpConfig config))).getD s

-- The next epoch is configured. An epoch zero without a configuration gets the same one.
def enterEpoch (s : State AccountId AuthorityId W cfg) (config : LMPEpochConfig) :
    State AccountId AuthorityId W cfg :=
  let epoch := Word.saturatingAdd 16 s.lmpEpoch 1
  let lmpConfig := if s.lmpEpoch = 0 ∧ (s.lmpConfig 0).isNone
    then update s.lmpConfig 0 (some config) else s.lmpConfig
  { s with
    finalizeLMPScore := some (s.finalizeLMPScore.getD s.lmpEpoch)
    lmpEpoch := epoch
    lmpConfig := update lmpConfig epoch (some config)
    world := CrowdSourceLiquidityMining.newEpoch AccountId s.world epoch }

def startNewEpoch (s : State AccountId AuthorityId W cfg) (n : ℕ) :
    State AccountId AuthorityId W cfg :=
  match s.expectedLMPConfig with
  | none => s
  | some config => (s.enterEpoch config).pushEpoch n (s.enterEpoch config).lmpEpoch config

-- The auctions of the fees, which only concern the storage of the auctions and of other pallets, are
-- left out.
def onInitialize (s : State AccountId AuthorityId W cfg) (n : ℕ) :
    State AccountId AuthorityId W cfg :=
  let s := if Word.saturatedInto 32 n % epochLength = 0 then s.startNewEpoch n else s
  if Word.saturatingAdd 32 (Word.saturatedInto 32 n) 7200 % epochLength = 0
  then { s with
    world := CrowdSourceLiquidityMining.stopAcceptingLmpWithdrawals AccountId s.world s.lmpEpoch }
  else s

end Session

section Deposits

variable [DecidableEq AccountId] [PalletAccounts AccountId] [Assets AccountId W] [Decimal.Arith]

def transferAsset (s : State AccountId AuthorityId W cfg) (payer payee : AccountId) (amount : ℕ)
    (asset : AssetId) : Except DispatchError (State AccountId AuthorityId W cfg) := do
  let world ← Assets.transfer s.world payer payee amount asset
  return { s with world := world }

-- The user of a first deposit is registered with itself as the proxy.
def registerDepositor (s : State AccountId AuthorityId W cfg) (user : AccountId) :
    Except DispatchError (State AccountId AuthorityId W cfg) :=
  if (s.accounts user).isNone then s.registerUser user user else .ok s

def doDeposit (s : State AccountId AuthorityId W cfg) (id : ℕ) (user : AccountId) (asset : AssetId)
    (amount : ℕ) : Except DispatchError (State AccountId AuthorityId W cfg) := do
  ensure s.exchangeState .exchangeNotOperational
  ensure (asset ∈ s.allowlistedToken) .tokenNotAllowlisted
  ensure (amount ≤ depositMax) .amountOverflow
  ensure (cfg.minimumDeposit ≤ amount) .depositAmountTooLow
  let converted ← inUnits .failedToConvertDecimaltoBalance amount
  let s ← s.registerDepositor user
  let s ← s.transferAsset user PalletAccounts.palletAccount amount asset
  let total ← orElse .amountOverflow (Decimal.Arith.checkedAdd converted (s.totalAssets asset))
  let s := { s with totalAssets := update s.totalAssets asset total }
  let s ← s.pushIngress (.deposit id user asset converted)
  return s.depositEvent (.depositSuccessful id user asset amount)

-- An amount in units, in the smallest denomination.
def inPlanck (amount : Decimal) : Except DispatchError ℕ :=
  orElse .failedToConvertDecimaltoBalance (amount.saturatingMul unitDecimal).toNat?

-- The identifiers of the two deposits are derived from the block number.
def addLiquidity (s : State AccountId AuthorityId W cfg) (id : ℕ) (market : TradingPair)
    (pool lp : AccountId) (totalSharesIssued baseAmount quoteAmount : Decimal) :
    Except DispatchError (State AccountId AuthorityId W cfg) := do
  let s ← s.doDeposit id pool market.base (← inPlanck baseAmount)
  let s ← s.doDeposit id pool market.quote (← inPlanck quoteAmount)
  s.pushIngress (.addLiquidity (.ofPair market.base market.quote) pool lp totalSharesIssued baseAmount
    quoteAmount)

-- A message that does not fit into the queue is dropped.
def removeLiquidity (s : State AccountId AuthorityId W cfg) (market : TradingPair)
    (pool lp : AccountId) (burned total : ℕ) :
    Except DispatchError (State AccountId AuthorityId W cfg) := do
  let burned ← decimalFrom burned
  let total ← decimalFrom total
  let burnFrac := (Decimal.Arith.checkedDiv burned total).getD 0
  return (s.pushIngressAt s.currentBlockNumber
    (.removeLiquidity (.ofPair market.base market.quote) pool lp burnFrac total)).getD s

def forceClosePool (s : State AccountId AuthorityId W cfg) (market : TradingPair)
    (pool : AccountId) : State AccountId AuthorityId W cfg :=
  (s.pushIngressAt s.currentBlockNumber
    (.forceClosePool (.ofPair market.base market.quote) pool)).getD s

end Deposits

section Withdrawals

variable [DecidableEq AccountId] [PalletAccounts AccountId] [Assets AccountId W]
  [CrossChainGadget AccountId W] [Decimal.Arith]

-- Pays one withdrawal. Nothing is changed if one of the steps fails.
def onIdleWithdrawalProcessor (world : W) (withdrawal : Withdrawal AccountId) :
    Except DispatchError W := do
  let converted ← inPlanck withdrawal.amount
  let world ← Assets.transfer world PalletAccounts.palletAccount withdrawal.mainAccount converted
    withdrawal.asset
  match withdrawal.destination with
  | none => return world
  | some (.polkadot beneficiary fee) =>
    CrossChainGadget.parachainWithdraw world withdrawal.mainAccount withdrawal.asset converted
      beneficiary (fee.map Prod.fst) (fee.map Prod.snd) withdrawal.id

-- One withdrawal is tried. The lists are those that failed and those that were paid.
def tryWithdrawal (snapshotId : ℕ)
    (acc : State AccountId AuthorityId W cfg × List (Withdrawal AccountId) ×
      List (Withdrawal AccountId))
    (withdrawal : Withdrawal AccountId) :
    State AccountId AuthorityId W cfg × List (Withdrawal AccountId) × List (Withdrawal AccountId) :=
  let (s, failed, processed) := acc
  match onIdleWithdrawalProcessor s.world withdrawal with
  | .ok world => ({ s with world := world }, failed, processed ++ [withdrawal])
  | .error _  => (s.depositEvent (.withdrawalReady snapshotId withdrawal), failed ++ [withdrawal],
      processed)

-- The withdrawals are taken from the end of the vector.
def doWithdraw (s : State AccountId AuthorityId W cfg) (snapshotId : ℕ)
    (withdrawals : List (Withdrawal AccountId)) :
    State AccountId AuthorityId W cfg × List (Withdrawal AccountId) × List (Withdrawal AccountId) :=
  withdrawals.reverse.foldl (tryWithdrawal snapshotId) (s, [], [])

-- The event for the withdrawals that were paid, if there are any.
def depositClaimed (s : State AccountId AuthorityId W cfg) (snapshotId : ℕ) (main : AccountId)
    (processed : List (Withdrawal AccountId)) : State AccountId AuthorityId W cfg :=
  if processed.isEmpty then s else s.depositEvent (.withdrawalClaimed snapshotId main processed)

-- The withdrawals that failed are kept for their account, if there are any.
def keepFailed (map : WithdrawalsMap AccountId) (account : AccountId)
    (failed : List (Withdrawal AccountId)) : WithdrawalsMap AccountId :=
  if failed.isEmpty then map else map.insert account failed

def claimWithdraw (s : State AccountId AuthorityId W cfg) (snapshotId : ℕ) (account : AccountId) :
    Except DispatchError (State AccountId AuthorityId W cfg) := do
  let map ← orElse .invalidWithdrawalIndex (s.withdrawals snapshotId)
  let withdrawals ← orElse .invalidWithdrawalIndex map[account]?
  let (s, failed, processed) := s.doWithdraw snapshotId withdrawals
  let map := keepFailed (map.erase account) account failed
  let s := s.depositClaimed snapshotId account processed
  return { s with
    withdrawals := update s.withdrawals snapshotId (if map.isEmpty then none else some map) }

def addPending (map : WithdrawalsMap AccountId) (withdrawal : Withdrawal AccountId) :
    WithdrawalsMap AccountId :=
  match map[withdrawal.mainAccount]? with
  | some pending => map.insert withdrawal.mainAccount (pending ++ [withdrawal])
  | none         => map.insert withdrawal.mainAccount [withdrawal]

def createWithdrawalTree (withdrawals : List (Withdrawal AccountId)) : WithdrawalsMap AccountId :=
  withdrawals.foldl addPending ∅

-- The withdrawals of one account of a snapshot are tried.
def settleAccount (snapshotId : ℕ)
    (acc : State AccountId AuthorityId W cfg × WithdrawalsMap AccountId)
    (entry : AccountId × List (Withdrawal AccountId)) :
    State AccountId AuthorityId W cfg × WithdrawalsMap AccountId :=
  let (s, failed, processed) := acc.1.doWithdraw snapshotId entry.2
  (s.depositClaimed snapshotId entry.1 processed, keepFailed acc.2 entry.1 failed)

-- What could not be paid is pending from now on.
def settleWithdrawals (s : State AccountId AuthorityId W cfg) (snapshotId : ℕ)
    (withdrawals : List (Withdrawal AccountId)) : State AccountId AuthorityId W cfg :=
  let (s, failed) := (createWithdrawalTree withdrawals).toList.foldl (settleAccount snapshotId) (s, ∅)
  if failed.isEmpty then s
  else { s with withdrawals := update s.withdrawals snapshotId (some failed) }

-- The fees of a withdrawal in the native currency are burned. Other fees are paid in the native
-- currency as well.
def settleWithdrawalFee (s : State AccountId AuthorityId W cfg) (withdrawal : Withdrawal AccountId) :
    Except DispatchError (State AccountId AuthorityId W cfg) := do
  let amount := (withdrawal.fees.saturatingMul unitDecimal).toNat?.getD 0
  match withdrawal.asset with
  | .polkadex =>
    let world ← orElse .withdrawalFeeBurnFailed
      (Assets.burnNative s.world (PalletAccounts.palletAccount : AccountId) amount)
    return { s with world := world }
  | .asset _ =>
    let world ← Assets.transferNative s.world (PalletAccounts.palletAccount : AccountId)
      PalletAccounts.potAccount amount
    return { s with world := world }

end Withdrawals

section Scores

variable [DecidableEq AccountId]

-- The scores of the accounts of a market, until the number of rewarded accounts is used up.
def storeMetrics (epoch : ℕ) (pair : TradingPair) :
    (ℕ × TradingPair × AccountId → Decimal × Decimal × Bool) → ℕ →
    List (AccountId × (Decimal × Decimal)) →
    (ℕ × TradingPair × AccountId → Decimal × Decimal × Bool) × ℕ
  | metrics, counter, [] => (metrics, counter)
  | metrics, counter, (main, score, feesPaid) :: rest =>
    let metrics := update metrics (epoch, pair, main) (score, feesPaid, false)
    if counter - 1 = 0 then (metrics, 0) else storeMetrics epoch pair metrics (counter - 1) rest

def storeMarket (epoch : ℕ) (acc : State AccountId AuthorityId W cfg × ℕ)
    (market : TradingPair × Std.TreeMap AccountId (Decimal × Decimal) × (Decimal × Decimal)) :
    State AccountId AuthorityId W cfg × ℕ :=
  let (pair, scores, totals) := market
  let (metrics, counter) := storeMetrics epoch pair acc.1.traderMetrics acc.2 scores.toList
  ({ acc.1 with
    traderMetrics := metrics
    totalScores := update acc.1.totalScores (epoch, pair) totals }, counter)

def updateLmpScores (s : State AccountId AuthorityId W cfg)
    (metrics : TradingPairMetricsMap AccountId) :
    Except DispatchError (State AccountId AuthorityId W cfg) :=
  match s.finalizeLMPScore with
  | none => .ok s
  | some epoch => do
    let config ← orElse .lmpConfigNotFound (s.lmpConfig epoch)
    let (s, _) := metrics.toList.foldl (storeMarket epoch) (s, config.maxAccountsRewarded)
    let claimBlk := Word.saturatingAdd 32 s.currentBlockNumber config.claimSafetyPeriod
    let next := Word.saturatingAdd 16 epoch 1
    let s := { s with
      lmpClaimBlk := update s.lmpClaimBlk epoch (some claimBlk)
      finalizeLMPScore := if next < s.lmpEpoch then some next else none }
    return s.depositEvent (.lmpScoresUpdated epoch)

-- The scores of a summary, if it has any.
def updateScores (s : State AccountId AuthorityId W cfg) :
    Option (TradingPairMetricsMap AccountId) →
    Except DispatchError (State AccountId AuthorityId W cfg)
  | none         => .ok s
  | some metrics => s.updateLmpScores metrics

end Scores

section Egress

variable [DecidableEq AccountId] [PalletAccounts AccountId] [Assets AccountId W]
  [CrowdSourceLiquidityMining AccountId W] [Percent] [Decimal.Arith]

def burnFees (s : State AccountId AuthorityId W cfg) (amount : ℕ) :
    Except DispatchError (State AccountId AuthorityId W cfg) := do
  let world ← orElse .tradingFeesBurnFailed
    (Assets.burnNative s.world (PalletAccounts.palletAccount : AccountId) amount)
  return { s with world := world }

-- A part of the fees in the native currency is burned, and the rest is paid to a recipient.
def distributeFees (s : State AccountId AuthorityId W cfg)
    (distribution : FeeDistribution AccountId) (fees : ℕ) :
    Except DispatchError (State AccountId AuthorityId W cfg) := do
  ensure (fees < Assets.reducibleNative s.world (PalletAccounts.palletAccount : AccountId))
    .amountOverflow
  let burnt := Percent.mul (min distribution.burnRation 100) fees
  let s ← s.burnFees burnt
  s.transferAsset PalletAccounts.palletAccount distribution.recipientAddress (fees - burnt) .polkadex

def payFees (s : State AccountId AuthorityId W cfg) (fees : ℕ) :
    AssetId → Except DispatchError (State AccountId AuthorityId W cfg)
  | .asset id =>
    s.transferAsset PalletAccounts.palletAccount PalletAccounts.potAccount fees (.asset id)
  | .polkadex =>
    match s.feeDistributionConfig with
    | some distribution => s.distributeFees distribution fees
    | none              => s.burnFees fees

def processTradingFees (s : State AccountId AuthorityId W cfg) (entry : AssetId × Decimal) :
    Except DispatchError (State AccountId AuthorityId W cfg) := do
  let fees ← inPlanck entry.2
  let s ← s.payFees fees entry.1
  return s.depositEvent (.tradingFeesBurned entry.1 fees)

-- The assets of a pool are paid out to it.
def payPool (s : State AccountId AuthorityId W cfg) (market : TradingPairConfig) (pool : AccountId)
    (baseFreed quoteFreed : Decimal) :
    Except DispatchError (State AccountId AuthorityId W cfg) := do
  ensure (CrowdSourceLiquidityMining.isValidPoolId s.world pool) .invalidEgressPoolId
  let baseAmount ← inPlanck baseFreed
  let quoteAmount ← inPlanck quoteFreed
  let s ← s.transferAsset PalletAccounts.palletAccount pool baseAmount market.baseAsset
  s.transferAsset PalletAccounts.palletAccount pool quoteAmount market.quoteAsset

-- The average of the prices, and their number.
def updatePrice (prices : Std.TreeMap TradingPair (Decimal × Decimal))
    (entry : TradingPair × Decimal) : Std.TreeMap TradingPair (Decimal × Decimal) :=
  match prices[entry.1]? with
  | none => prices.insert entry.1 (entry.2, 1)
  | some (oldPrice, ticks) =>
    let sum := (oldPrice.saturatingMul ticks).saturatingAdd entry.2
    let ticks := ticks.saturatingAdd 1
    prices.insert entry.1 ((Decimal.Arith.checkedDiv sum ticks).getD oldPrice, ticks)

def processEgress (s : State AccountId AuthorityId W cfg) :
    EgressMessages AccountId → Except DispatchError (State AccountId AuthorityId W cfg)
  | .tradingFees fees => fees.toList.foldlM processTradingFees s
  | .addLiquidityResult market pool lp issuedShares price totalInventory => do
    let world ← CrowdSourceLiquidityMining.addLiquiditySuccess s.world market.pair pool lp
      issuedShares price totalInventory
    return { s with world := world }
  | .removeLiquidityResult market pool lp baseFreed quoteFreed => do
    let s ← s.payPool market pool baseFreed quoteFreed
    let world ← CrowdSourceLiquidityMining.removeLiquiditySuccess s.world market.pair pool lp
      baseFreed quoteFreed
    return { s with world := world }
  | .removeLiquidityFailed market pool lp burnFrac totalShares baseFree quoteFree baseRequired
      quoteRequired => do
    let world ← CrowdSourceLiquidityMining.removeLiquidityFailed s.world market.pair pool lp burnFrac
      totalShares baseFree quoteFree baseRequired quoteRequired
    return { s with world := world }
  | .poolForceClosed market pool baseFreed quoteFreed => do
    let s ← s.payPool market pool baseFreed quoteFreed
    let world ← CrowdSourceLiquidityMining.poolForceCloseSuccess s.world market.pair pool baseFreed
      quoteFreed
    return { s with world := world }
  | .priceOracle prices =>
    .ok { s with priceOracle := prices.toList.foldl updatePrice s.priceOracle }

def processEgressMsg (s : State AccountId AuthorityId W cfg)
    (msgs : List (EgressMessages AccountId)) :
    Except DispatchError (State AccountId AuthorityId W cfg) := do
  ensure (msgs.length ≤ cfg.maxEgressMessages) .tooManyEgressMessages
  msgs.foldlM processEgress s

end Egress

section Snapshots

def activeAuthorities (s : State AccountId AuthorityId W cfg) : List AuthorityId :=
  s.authorities s.validatorSetId

variable [Percent] [Authority AccountId AuthorityId AuthoritySignature]

def requiredSignatures (authorities : List AuthorityId) : ℕ :=
  max (Percent.mul 51 authorities.length) 1

-- One signature of a snapshot. The indices of the signatures before it are `seen`.
def validateSignature (authorities : List AuthorityId) (summary : SnapshotSummary AccountId)
    (seen : List ℕ) (signature : ℕ × AuthoritySignature) : Except DispatchError (List ℕ) :=
  if signature.1 ∈ seen then
    .error (.invalidTransaction 16)
  else
    match authorities[signature.1]? with
    | none => .error (.invalidTransaction 12)
    | some auth =>
      if Authority.verify signature.2 summary auth
      then .ok (signature.1 :: seen)
      else .error (.invalidTransaction 12)

def validateSnapshot (s : State AccountId AuthorityId W cfg) (summary : SnapshotSummary AccountId)
    (signatures : List (ℕ × AuthoritySignature)) : Except DispatchError Unit :=
  if Word.saturatingAdd 64 s.snapshotNonce 1 ≠ summary.snapshotId then
    .error (.invalidTransaction 10)
  else if cfg.obWithdrawalLimit < summary.withdrawals.length % 2 ^ 32 then
    .error (.invalidTransaction 13)
  else if summary.validatorSetId ≠ s.validatorSetId then
    .error (.invalidTransaction 14)
  else if s.activeAuthorities = [] then
    .error (.invalidTransaction 15)
  else if signatures.length < requiredSignatures s.activeAuthorities then
    .error (.invalidTransaction 11)
  else
    (signatures.foldlM (validateSignature s.activeAuthorities summary) []).map fun _ => ()

variable [DecidableEq AccountId] [PalletAccounts AccountId] [Assets AccountId W]
  [CrossChainGadget AccountId W] [CrowdSourceLiquidityMining AccountId W] [Decimal.Arith]

-- The messages of the blocks up to `n` are removed from the queue.
def pruneIngress (s : State AccountId AuthorityId W cfg) (n : ℕ) :
    State AccountId AuthorityId W cfg :=
  { s with ingressMessages := fun k => if k ≤ n then default else s.ingressMessages k }

def executeWithdrawals (s : State AccountId AuthorityId W cfg) (snapshotId : ℕ)
    (withdrawals : List (Withdrawal AccountId)) :
    Except DispatchError (State AccountId AuthorityId W cfg) :=
  if withdrawals.isEmpty then .ok s
  else withdrawals.foldlM settleWithdrawalFee (s.settleWithdrawals snapshotId withdrawals)

def submitSnapshot (s : State AccountId AuthorityId W cfg) (summary : SnapshotSummary AccountId) :
    Except DispatchError (State AccountId AuthorityId W cfg) := do
  let s ← s.updateScores summary.traderMetrics
  let s ← s.processEgressMsg summary.egressMessages
  let s ← s.executeWithdrawals summary.snapshotId summary.withdrawals
  let s := { s with
    snapshotNonce := summary.snapshotId
    snapshots := update s.snapshots summary.snapshotId (some summary) }
  let s ← s.pushIngress .withdrawTradingFees
  return (s.pruneIngress summary.lastProcessedBlk).depositEvent (.snapshotProcessed summary.snapshotId)

end Snapshots

section LiquidityMining

variable [Decimal.Arith]

-- The division by the unit, which aborts if it fails.
def divUnit (n : ℕ) : Except DispatchError Decimal := do
  (Decimal.Arith.checkedDiv (← decimalFrom n) unitDecimal).elim
    (.error (.panic "Division overflowed")) .ok

def setMarketConfig (s : State AccountId AuthorityId W cfg)
    (acc : Std.TreeMap TradingPair LMPMarketConfig × ℕ) (market : LMPMarketConfigWrapper) :
    Except DispatchError (Std.TreeMap TradingPair LMPMarketConfig × ℕ) := do
  ensure (s.tradingPairs market.tradingPair ≠ none) .tradingPairNotRegistered
  let config := {
    weightage := ← divUnit market.marketWeightage
    minFeesPaid := ← divUnit market.minFeesPaid
    minMakerVolume := ← divUnit market.minMakerVolume
    maxSpread := ← divUnit market.maxSpread
    minDepth := ← divUnit market.minDepth }
  return (acc.1.insert market.tradingPair config, Word.saturatingAdd 128 acc.2 market.marketWeightage)

def setLmpEpochConfig (s : State AccountId AuthorityId W cfg)
    (totalLiquidityMiningRewards totalTradingRewards : Option ℕ)
    (lmpConfig : List LMPMarketConfigWrapper) (maxAccountsRewarded claimSafetyPeriod : Option ℕ) :
    Except DispatchError (State AccountId AuthorityId W cfg) := do
  let old := s.expectedLMPConfig.getD default
  let miningRewards ← totalLiquidityMiningRewards.elim (.ok old.totalLiquidityMiningRewards) divUnit
  let tradingRewards ← totalTradingRewards.elim (.ok old.totalTradingRewards) divUnit
  let (markets, totalPercent) ← lmpConfig.foldlM s.setMarketConfig (old.config, 0)
  ensure (totalPercent = unitBalance) .invalidMarketWeightage
  let config := {
    totalLiquidityMiningRewards := miningRewards
    totalTradingRewards := tradingRewards
    config := markets
    maxAccountsRewarded := maxAccountsRewarded.getD old.maxAccountsRewarded
    claimSafetyPeriod := claimSafetyPeriod.getD old.claimSafetyPeriod }
  ensure config.verify .invalidLMPConfig
  return { s with expectedLMPConfig := some config }

end LiquidityMining

end State

-- The calls of the pallet, of the pallets that use it, and of the chain itself. The calls for
-- governance are made by an origin that may make them.
inductive Call (AccountId AuthorityId AuthoritySignature : Type) [Ord AccountId]
  | registerMainAccount (main proxy : AccountId)
  | addProxyAccount (main proxy : AccountId)
  | removeProxyAccount (main proxy : AccountId)
  | closeTradingPair (base quote : AssetId)
  | openTradingPair (base quote : AssetId)
  | registerTradingPair (base quote : AssetId) (minVolume maxVolume priceTickSize qtyStepSize : ℕ)
  | updateTradingPair (base quote : AssetId) (minVolume maxVolume priceTickSize qtyStepSize : ℕ)
  | deposit (id : ℕ) (user : AccountId) (asset : AssetId) (amount : ℕ)
  | setSnapshot (newSnapshotId : ℕ)
  | setExchangeState (state : Bool)
  | claimWithdraw (snapshotId : ℕ) (account : AccountId)
  | allowlistToken (token : AssetId)
  | removeAllowlistedToken (token : AssetId)
  | submitSnapshot (summary : SnapshotSummary AccountId) (signatures : List (ℕ × AuthoritySignature))
  | whitelistOrderbookOperator (key : ℕ)
  | setLmpEpochConfig (totalLiquidityMiningRewards totalTradingRewards : Option ℕ)
      (lmpConfig : List LMPMarketConfigWrapper) (maxAccountsRewarded claimSafetyPeriod : Option ℕ)
  | setFeeDistribution (distribution : FeeDistribution AccountId)
  | startNewEpochLmp
  | forceSubmitSnapshot (summary : SnapshotSummary AccountId)
  | addLiquidity (id : ℕ) (market : TradingPair) (pool lp : AccountId)
      (totalSharesIssued baseAmount quoteAmount : Decimal)
  | removeLiquidity (market : TradingPair) (pool lp : AccountId) (burned total : ℕ)
  | forceClosePool (market : TradingPair) (pool : AccountId)
  | newSession (authorities queued : List AuthorityId)
  | nextBlock

variable [DecidableEq AccountId] [PalletAccounts AccountId] [Assets AccountId W]
  [CrossChainGadget AccountId W] [CrowdSourceLiquidityMining AccountId W] [Percent]
  [Authority AccountId AuthorityId AuthoritySignature] [Decimal.Arith]

def dispatch (s : State AccountId AuthorityId W cfg) :
    Call AccountId AuthorityId AuthoritySignature →
    Except DispatchError (State AccountId AuthorityId W cfg)
  | .registerMainAccount main proxy => s.registerUser main proxy
  | .addProxyAccount main proxy => s.addProxyAccount main proxy
  | .removeProxyAccount main proxy => s.removeProxyAccount main proxy
  | .closeTradingPair base quote => s.closeTradingPair base quote
  | .openTradingPair base quote => s.openTradingPair base quote
  | .registerTradingPair base quote minVolume maxVolume priceTickSize qtyStepSize =>
    s.registerTradingPair base quote minVolume maxVolume priceTickSize qtyStepSize
  | .updateTradingPair base quote minVolume maxVolume priceTickSize qtyStepSize =>
    s.updateTradingPair base quote minVolume maxVolume priceTickSize qtyStepSize
  | .deposit id user asset amount => s.doDeposit id user asset amount
  | .setSnapshot newSnapshotId => .ok (s.setSnapshot newSnapshotId)
  | .setExchangeState state => s.setExchangeState state
  | .claimWithdraw snapshotId account => s.claimWithdraw snapshotId account
  | .allowlistToken token => s.allowlistToken token
  | .removeAllowlistedToken token => .ok (s.removeAllowlistedToken token)
  | .submitSnapshot summary signatures => do
    s.validateSnapshot summary signatures
    s.submitSnapshot summary
  | .whitelistOrderbookOperator key => .ok (s.whitelistOrderbookOperator key)
  | .setLmpEpochConfig miningRewards tradingRewards lmpConfig maxAccounts safetyPeriod =>
    s.setLmpEpochConfig miningRewards tradingRewards lmpConfig maxAccounts safetyPeriod
  | .setFeeDistribution distribution => .ok (s.setFeeDistribution distribution)
  | .startNewEpochLmp => .ok (s.startNewEpoch s.currentBlockNumber)
  | .forceSubmitSnapshot summary => .ok (s.forceSubmitSnapshot summary)
  | .addLiquidity id market pool lp totalSharesIssued baseAmount quoteAmount =>
    s.addLiquidity id market pool lp totalSharesIssued baseAmount quoteAmount
  | .removeLiquidity market pool lp burned total => s.removeLiquidity market pool lp burned total
  | .forceClosePool market pool => .ok (s.forceClosePool market pool)
  | .newSession authorities queued => .ok (s.onNewSession authorities queued)
  | .nextBlock => .ok (State.onInitialize { s with currentBlockNumber := s.currentBlockNumber + 1 }
      (s.currentBlockNumber + 1))

def step (s : State AccountId AuthorityId W cfg) (c : Call AccountId AuthorityId AuthoritySignature) :
    Option (State AccountId AuthorityId W cfg) :=
  (dispatch s c).toOption

namespace Mock

@[reducible]
def percent : Percent where
  mul p n := (p * n + 49) / 100
  mul_nearest p n := by omega

-- A signature of an authority names the signer and the summary.
abbrev AuthSig := ℕ × ℕ × ℕ

instance : Authority Account ℕ AuthSig where
  verify signature summary auth := signature = (auth, summary.snapshotId, summary.stateHash)

-- The balances of the accounts.
abbrev World := Account → AssetId → ℕ

def transfer (world : World) (asset : AssetId) (payer payee : Account) (amount : ℕ) :
    Except DispatchError World :=
  if world payer asset < amount then .error (.other "FundsUnavailable")
  else
    let world := update world payer
      (update (world payer) asset (world payer asset - amount))
    .ok (update world payee (update (world payee) asset (world payee asset + amount)))

instance : Assets Account World where
  transferNative world := transfer world .polkadex
  transferOther world id := transfer world (.asset id)
  burnNative world account amount :=
    if world account .polkadex < amount then none
    else some (update world account
      (update (world account) .polkadex (world account .polkadex - amount)))
  reducibleNative world account := world account .polkadex

instance : CrossChainGadget Account World where
  parachainWithdraw _ _ _ _ _ _ _ _ := .error (.other "InvalidDestination")

-- There are no pools.
instance : CrowdSourceLiquidityMining Account World where
  isValidPoolId _ _ := false
  newEpoch world _ := world
  addLiquiditySuccess _ _ _ _ _ _ _ := .error (.other "UnknownPool")
  removeLiquiditySuccess _ _ _ _ _ _ := .error (.other "UnknownPool")
  removeLiquidityFailed _ _ _ _ _ _ _ _ _ _ := .error (.other "UnknownPool")
  poolForceCloseSuccess _ _ _ _ _ := .error (.other "UnknownPool")
  stopAcceptingLmpWithdrawals world _ := world

-- The constants of the main network.
def config : Config where
  obWithdrawalLimit := 50
  obIngressLimit := 500
  minimumDeposit := 1_000_000_000_000
  maxEgressMessages := 1000

end Mock

end Ocex
