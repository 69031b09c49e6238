import PolkadexModel.Ocex.Rewards

open Function

-- The pools of the market makers. The providers deposit into a pool for shares of it, and the funds
-- are traded on the exchange.
namespace LiquidityMining

open Ocex (AssetId TradingPair DispatchError unitDecimal unitBalance RewardsAccount)

inductive Error
  | unknownMarket
  | conversionError
  | invalidCommission
  | invalidExitFee
  | poolExists
  | notEnoughQuoteAmount
  | unknownPool
  | publicDepositsNotAllowed
  | totalShareIssuanceIsZero
  | invalidLPAddress
  | alreadyClaimed
  | invalidTotalScore
  | poolForceClosed
  | poolNotForceClosed
  | invalidTotalIssuance
  | snapshotInProgress
  | priceNotAvailable
deriving DecidableEq

-- For the exchange, it is an error of another pallet.
def Error.dispatch : Error → DispatchError
  | unknownMarket => .other "UnknownMarket"
  | conversionError => .other "ConversionError"
  | invalidCommission => .other "InvalidCommission"
  | invalidExitFee => .other "InvalidExitFee"
  | poolExists => .other "PoolExists"
  | notEnoughQuoteAmount => .other "NotEnoughQuoteAmount"
  | unknownPool => .other "UnknownPool"
  | publicDepositsNotAllowed => .other "PublicDepositsNotAllowed"
  | totalShareIssuanceIsZero => .other "TotalShareIssuanceIsZero"
  | invalidLPAddress => .other "InvalidLPAddress"
  | alreadyClaimed => .other "AlreadyClaimed"
  | invalidTotalScore => .other "InvalidTotalScore"
  | poolForceClosed => .other "PoolForceClosed"
  | poolNotForceClosed => .other "PoolNotForceClosed"
  | invalidTotalIssuance => .other "InvalidTotalIssuance"
  | snapshotInProgress => .other "SnapshotInProgress"
  | priceNotAvailable => .other "PriceNotAvailable"

def ensure (p : Prop) [Decidable p] (e : Error) : Except DispatchError Unit :=
  if p then .ok () else .error e.dispatch

def orElse {α : Type} (e : Error) (a : Option α) : Except DispatchError α :=
  a.elim (.error e.dispatch) .ok

-- Whether a restriction on an account is overruled.
inductive Fortitude
  | polite
  | force
deriving DecidableEq

-- What this pallet uses of the currencies, apart from what the exchange uses as well.
class Fungibles (AccountId A : Type) where
  minimumNative    : A → ℕ
  minimumBalance   : A → ℕ → ℕ
  totalIssuance    : A → ℕ → ℕ
  -- All that can be taken from an account by force, even if the account is closed by that.
  reducibleBalance : A → ℕ → AccountId → ℕ
  create           : A → ℕ → AccountId → ℕ → Except DispatchError A
  mintInto         : A → ℕ → AccountId → ℕ → Except DispatchError A
  -- Burns exactly the amount, even if the account is closed by that.
  burnFrom         : A → ℕ → AccountId → ℕ → Fortitude → Except DispatchError A
  -- The account of the payer is kept open.
  transferPreserve : A → ℕ → AccountId → AccountId → ℕ → Except DispatchError A

-- The account of a pool and the identifier of its shares are derived from one hash.
class PoolAccounts (AccountId : Type) where
  createPoolAccount : AccountId → TradingPair → AccountId × ℕ

structure MarketMakerConfig (AccountId : Type) where
  poolId : AccountId
  commission : Decimal
  exitFee : Decimal
  publicFundsAllowed : Bool
  name : Vector UInt8 10
  shareId : ℕ
  forceClosed : Bool

inductive Event (AccountId : Type)
  | liquidityAdded (market : TradingPair) (pool lp : AccountId) (shares : ℕ) (shareId : AssetId)
      (price totalInventoryInQuote : ℕ)
  | liquidityRemoved (market : TradingPair) (pool lp : AccountId)
  | liquidityRemovalFailed (market : TradingPair) (pool lp : AccountId)
      (burnFrac baseFree quoteFree baseRequired quoteRequired : ℕ)
  | poolForceClosed (market : TradingPair) (pool : AccountId) (baseFreed quoteFreed : ℕ)
deriving DecidableEq

-- The scores of the providers with what they have claimed, their sum, and whether the market maker
-- has claimed.
abbrev MMInfo (AccountId : Type) [Ord AccountId] :=
  Std.TreeMap AccountId (ℕ × Bool) × ℕ × Bool

-- The scores of the pools for an epoch.
abbrev LMPScoreSheet (AccountId : Type) [Ord AccountId] :=
  List ((TradingPair × AccountId × ℕ) × (Std.TreeMap AccountId (ℕ × Bool) × ℕ))

-- The storage of the pallet, over that of the currencies. Of the block in which a snapshot was
-- requested, only its presence is used on the chain.
structure Storage (AccountId A : Type) [Ord AccountId] where
  pools : TradingPair × AccountId → Option (MarketMakerConfig AccountId)
  poolIdIndex : AccountId → Option (TradingPair × AccountId)
  rewards : ℕ × AccountId → Option ℕ
  withdrawalRequests : ℕ × AccountId → List (AccountId × ℕ × ℕ)
  liquidityProviders : ℕ × AccountId → MMInfo AccountId
  lmpEpoch : ℕ
  snapshotFlag : Bool
  withdrawingEpoch : ℕ
  assets : A
  events : List (Event AccountId)

variable {AccountId AuthorityId AuthoritySignature A : Type} [Ord AccountId] {cfg : Ocex.Config}

namespace Storage

def genesis (assets : A) : Storage AccountId A where
  pools _ := none
  poolIdIndex _ := none
  rewards _ := none
  withdrawalRequests _ := []
  liquidityProviders _ := (∅, 0, false)
  lmpEpoch := 0
  snapshotFlag := false
  withdrawingEpoch := 0
  assets := assets
  events := []

def depositEvent (w : Storage AccountId A) (e : Event AccountId) : Storage AccountId A :=
  { w with events := w.events ++ [e] }

-- An operation of the currencies, which changes nothing else.
def onAssets (w : Storage AccountId A) (f : A → Except DispatchError A) :
    Except DispatchError (Storage AccountId A) :=
  (f w.assets).map fun assets => { w with assets := assets }

instance [Ocex.Assets AccountId A] : Ocex.Assets AccountId (Storage AccountId A) where
  transferNative w payer payee amount := w.onAssets (Ocex.Assets.transferNative · payer payee amount)
  transferOther w id payer payee amount := w.onAssets (Ocex.Assets.transferOther · id payer payee amount)
  burnNative w account amount :=
    (Ocex.Assets.burnNative w.assets account amount).map fun assets => { w with assets := assets }
  reducibleNative w account := Ocex.Assets.reducibleNative w.assets account

instance [RewardsAccount AccountId A] : RewardsAccount AccountId (Storage AccountId A) where
  rewardsAccount := RewardsAccount.rewardsAccount A
  transferAllowDeath w payer payee amount :=
    w.onAssets (RewardsAccount.transferAllowDeath · payer payee amount)

instance [Ocex.CrossChainGadget AccountId A] :
    Ocex.CrossChainGadget AccountId (Storage AccountId A) where
  parachainWithdraw w account asset amount beneficiary feeAsset feeAmount id :=
    w.onAssets (Ocex.CrossChainGadget.parachainWithdraw · account asset amount beneficiary feeAsset
      feeAmount id)

section Callbacks

variable [Decimal.Arith]

-- An amount in units, in the smallest denomination.
def toBalance (amount : Decimal) : Except DispatchError ℕ :=
  orElse .conversionError (amount.saturatingMul unitDecimal).toNat?

-- The pool of a message of the exchange, which has the account of the pool and not its market maker.
def resolvePool (w : Storage AccountId A) (market : TradingPair) (pool : AccountId) :
    Except DispatchError (AccountId × MarketMakerConfig AccountId) := do
  let (_, maker) ← orElse .unknownPool (w.poolIdIndex pool)
  let config ← orElse .unknownPool (w.pools (market, maker))
  return (maker, config)

def newEpoch (w : Storage AccountId A) (epoch : ℕ) : Storage AccountId A :=
  { w with lmpEpoch := epoch, snapshotFlag := true }

def stopAcceptingLmpWithdrawals (w : Storage AccountId A) (epoch : ℕ) : Storage AccountId A :=
  { w with withdrawingEpoch := epoch }

def isValidPoolId (w : Storage AccountId A) (pool : AccountId) : Bool :=
  (w.poolIdIndex pool).isSome

variable [Ocex.Assets AccountId A] [Fungibles AccountId A]

-- The multiplication aborts if it overflows.
def transferAsset (w : Storage AccountId A) (payer payee : AccountId) (amount : Decimal)
    (asset : AssetId) : Except DispatchError (Storage AccountId A) := do
  let amount ← (Decimal.Arith.checkedMul amount unitDecimal).elim
    (.error (.panic "Multiplication overflowed")) .ok
  let amount ← orElse .conversionError amount.toNat?
  match asset with
  | .polkadex => w.onAssets (Ocex.Assets.transferNative · payer payee amount)
  | .asset id => w.onAssets (Fungibles.transferPreserve · id payer payee amount)

def addLiquiditySuccess (w : Storage AccountId A) (market : TradingPair) (pool lp : AccountId)
    (sharesIssued price totalInventory : Decimal) : Except DispatchError (Storage AccountId A) := do
  let (maker, config) ← w.resolvePool market pool
  let shares ← toBalance sharesIssued
  let price ← toBalance price
  let totalInventory ← toBalance totalInventory
  let w ← w.onAssets (Fungibles.mintInto · config.shareId lp shares)
  return w.depositEvent (.liquidityAdded market maker lp shares (.asset config.shareId) price
    totalInventory)

def removeLiquiditySuccess (w : Storage AccountId A) (market : TradingPair) (pool lp : AccountId)
    (baseFree quoteFree : Decimal) : Except DispatchError (Storage AccountId A) := do
  let w ← w.transferAsset pool lp baseFree market.base
  let w ← w.transferAsset pool lp quoteFree market.quote
  return w.depositEvent (.liquidityRemoved market pool lp)

-- The shares that were burned for the request are given back.
def removeLiquidityFailed (w : Storage AccountId A) (market : TradingPair) (pool lp : AccountId)
    (burnFrac totalShares baseFree quoteFree baseRequired quoteRequired : Decimal) :
    Except DispatchError (Storage AccountId A) := do
  let sharesBurned := totalShares.saturatingMul burnFrac
  let burnFrac ← toBalance burnFrac
  let sharesBurned ← toBalance sharesBurned
  let (_, config) ← w.resolvePool market pool
  let w ← w.onAssets (Fungibles.mintInto · config.shareId lp sharesBurned)
  let baseFree ← toBalance baseFree
  let quoteFree ← toBalance quoteFree
  let baseRequired ← toBalance baseRequired
  let quoteRequired ← toBalance quoteRequired
  return w.depositEvent (.liquidityRemovalFailed market pool lp burnFrac baseFree quoteFree
    baseRequired quoteRequired)

variable [DecidableEq AccountId]

omit [Ocex.Assets AccountId A] [Fungibles AccountId A] in
def poolForceCloseSuccess (w : Storage AccountId A) (market : TradingPair) (pool : AccountId)
    (baseFreed quoteFreed : Decimal) : Except DispatchError (Storage AccountId A) := do
  let (maker, config) ← w.resolvePool market pool
  let w := { w with
    pools := update w.pools (market, maker) (some { config with forceClosed := true }) }
  let baseFreed ← toBalance baseFreed
  let quoteFreed ← toBalance quoteFreed
  return w.depositEvent (.poolForceClosed market maker baseFreed quoteFreed)

instance : Ocex.CrowdSourceLiquidityMining AccountId (Storage AccountId A) where
  isValidPoolId := isValidPoolId
  newEpoch := newEpoch
  addLiquiditySuccess := addLiquiditySuccess
  removeLiquiditySuccess := removeLiquiditySuccess
  removeLiquidityFailed := removeLiquidityFailed
  poolForceCloseSuccess := poolForceCloseSuccess
  stopAcceptingLmpWithdrawals := stopAcceptingLmpWithdrawals

end Callbacks

end Storage

-- The state of the exchange, with this pallet and the currencies as the storage of the others.
abbrev Chain (AccountId AuthorityId A : Type) [Ord AccountId] (cfg : Ocex.Config) :=
  Ocex.State AccountId AuthorityId (Storage AccountId A) cfg

def genesis (authorities : List AuthorityId) (assets : A) : Chain AccountId AuthorityId A cfg :=
  .genesis authorities (.genesis assets)

-- A change of the storage of this pallet.
def onStorage (s : Chain AccountId AuthorityId A cfg)
    (f : Storage AccountId A → Except DispatchError (Storage AccountId A)) :
    Except DispatchError (Chain AccountId AuthorityId A cfg) :=
  (f s.world).map fun w => { s with world := w }

section Pools

variable [DecidableEq AccountId] [Ocex.Assets AccountId A] [Fungibles AccountId A]
  [PoolAccounts AccountId] [Decimal.Arith]

-- An amount of the smallest denomination, in units.
def toUnits (n : ℕ) : Except DispatchError Decimal := do
  let n ← orElse .conversionError (Decimal.ofNat? n)
  (Decimal.Arith.checkedDiv n unitDecimal).elim (.error (.panic "Division overflowed")) .ok

def assetId : AssetId → Option ℕ
  | .asset id => some id
  | .polkadex => none

-- The least balance of an asset is paid, if it is not the native currency.
def payMinimum (assets : A) (maker pool : AccountId) (asset : AssetId) : Except DispatchError A :=
  match assetId asset with
  | none    => .ok assets
  | some id => Fungibles.transferPreserve assets id maker pool
      (Fungibles.minimumBalance AccountId assets id)

-- The quote asset is paid twice. The second time, it must not be the native currency.
def openPool (assets : A) (maker pool : AccountId) (shareId : ℕ) (market : TradingPair) :
    Except DispatchError A := do
  let assets ← Fungibles.create assets shareId pool 1
  let assets ← Ocex.Assets.transferNative assets maker pool (Fungibles.minimumNative AccountId assets)
  let assets ← payMinimum assets maker pool market.base
  let assets ← payMinimum assets maker pool market.quote
  let quote ← orElse .conversionError (assetId market.quote)
  Fungibles.transferPreserve assets quote maker pool (Fungibles.minimumBalance AccountId assets quote)

def registerPool (s : Chain AccountId AuthorityId A cfg) (maker : AccountId)
    (name : Vector UInt8 10) (market : TradingPair) (commission exitFee : ℕ)
    (publicFundsAllowed : Bool) (tradingAccount : AccountId) :
    Except DispatchError (Chain AccountId AuthorityId A cfg) := do
  ensure (s.world.pools (market, maker)).isNone .poolExists
  ensure (s.tradingPairs market).isSome .unknownMarket
  let commission ← toUnits commission
  let exitFee ← toUnits exitFee
  ensure (0 ≤ commission ∧ commission ≤ 1) .invalidCommission
  ensure (0 ≤ exitFee ∧ exitFee ≤ 1) .invalidExitFee
  let (poolId, shareId) := PoolAccounts.createPoolAccount maker market
  let s ← onStorage s (·.onAssets (openPool · maker poolId shareId market))
  let s ← s.registerUser poolId tradingAccount
  let config : MarketMakerConfig AccountId :=
    { poolId, commission, exitFee, publicFundsAllowed, name, shareId, forceClosed := false }
  return { s with world := { s.world with
    poolIdIndex := update s.world.poolIdIndex poolId (some (market, maker))
    pools := update s.world.pools (market, maker) (some config) } }

def averagePrice (s : Chain AccountId AuthorityId A cfg) (market : TradingPair) : Option Decimal :=
  s.priceOracle[market]?.map Prod.fst

variable [Ocex.PalletAccounts AccountId]

-- The shares that were issued so far are told to the engine, which computes those of the deposit.
def addLiquidity (s : Chain AccountId AuthorityId A cfg) (id : ℕ) (lp : AccountId)
    (market : TradingPair) (maker : AccountId) (baseAmount maxQuoteAmount : ℕ) :
    Except DispatchError (Chain AccountId AuthorityId A cfg) := do
  let config ← orElse .unknownPool (s.world.pools (market, maker))
  ensure (!s.world.snapshotFlag) .snapshotInProgress
  ensure (!config.forceClosed) .poolForceClosed
  ensure (config.publicFundsAllowed ∨ config.forceClosed ∨ lp = maker) .publicDepositsNotAllowed
  let baseAmount ← toUnits baseAmount
  let maxQuoteAmount ← toUnits maxQuoteAmount
  let price ← orElse .priceNotAvailable (averagePrice s market)
  let quoteAmount := price.saturatingMul baseAmount
  ensure (quoteAmount ≤ maxQuoteAmount) .notEnoughQuoteAmount
  let s ← onStorage s (·.transferAsset lp config.poolId baseAmount market.base)
  let s ← onStorage s (·.transferAsset lp config.poolId quoteAmount market.quote)
  let totalSharesIssued ← Ocex.State.divUnit
    (Fungibles.totalIssuance AccountId s.world.assets config.shareId)
  s.addLiquidity id market config.poolId lp totalSharesIssued baseAmount quoteAmount

-- The shares are burned at once, and the request is executed at the end of the epoch.
def removeLiquidity (s : Chain AccountId AuthorityId A cfg) (lp : AccountId) (market : TradingPair)
    (maker : AccountId) (shares : ℕ) : Except DispatchError (Chain AccountId AuthorityId A cfg) := do
  let config ← orElse .unknownPool (s.world.pools (market, maker))
  ensure (!s.world.snapshotFlag) .snapshotInProgress
  let total := Fungibles.totalIssuance AccountId s.world.assets config.shareId
  ensure (total ≠ 0) .totalShareIssuanceIsZero
  let s ← onStorage s (·.onAssets (Fungibles.burnFrom · config.shareId lp shares .polite))
  let key := (s.world.withdrawingEpoch, config.poolId)
  return { s with world := { s.world with
    withdrawalRequests := update s.world.withdrawalRequests key
      (s.world.withdrawalRequests key ++ [(lp, shares, total)]) } }

-- The exchange is told the market maker, and not the account of the pool.
def forceClosePool (s : Chain AccountId AuthorityId A cfg) (market : TradingPair)
    (maker : AccountId) : Except DispatchError (Chain AccountId AuthorityId A cfg) := do
  ensure (s.world.pools (market, maker)).isSome .unknownPool
  return s.forceClosePool market maker

-- It aborts if there are fewer requests.
def initiateWithdrawal (s : Chain AccountId AuthorityId A cfg) (maker : AccountId)
    (market : TradingPair) (epoch numRequests : ℕ) :
    Except DispatchError (Chain AccountId AuthorityId A cfg) := do
  let config ← orElse .unknownPool (s.world.pools (market, maker))
  let requests := s.world.withdrawalRequests (epoch, config.poolId)
  let s ← (requests.take numRequests).foldlM (fun s request =>
    s.removeLiquidity market config.poolId request.1 request.2.1 request.2.2) s
  if requests.length < numRequests then
    .error (.panic "range start index out of range for slice")
  else
    return { s with world := { s.world with
      withdrawalRequests := update s.world.withdrawalRequests (epoch, config.poolId)
        (requests.drop numRequests) } }

end Pools

section Rewards

variable [DecidableEq AccountId] [RewardsAccount AccountId A] [Decimal.Arith]

-- The rewards of a pool for an epoch, which are claimed from the exchange the first time.
def poolRewards (s : Chain AccountId AuthorityId A cfg) (market : TradingPair) (pool : AccountId)
    (epoch : ℕ) : Except DispatchError (Chain AccountId AuthorityId A cfg × ℕ) :=
  match s.world.rewards (epoch, pool) with
  | some rewards => .ok (s, rewards)
  | none => do
    let (s, rewards) ← s.doClaimLmpRewards pool epoch market
    return ({ s with world := { s.world with
      rewards := update s.world.rewards (epoch, pool) (some rewards) } }, rewards)

-- The part of a provider of the rewards.
def rewardsForLp (score rewards totalScore : ℕ) : Except DispatchError ℕ :=
  if totalScore = 0 then .error Error.invalidTotalScore.dispatch
  else .ok (min (score * rewards) (Word.max 128) / totalScore)

-- The claim of a provider: the pool that pays, the score, and the amount.
def lpClaim (s : Chain AccountId AuthorityId A cfg) (lp : AccountId) (market : TradingPair)
    (maker : AccountId) (epoch : ℕ) :
    Except DispatchError (Chain AccountId AuthorityId A cfg × AccountId × ℕ × ℕ) := do
  let config ← orElse .unknownPool (s.world.pools (market, maker))
  let (s, rewards) ← poolRewards s market config.poolId epoch
  let (scores, totalScore, _) := s.world.liquidityProviders (epoch, config.poolId)
  let (score, alreadyClaimed) ← orElse .invalidLPAddress scores[lp]?
  ensure (!alreadyClaimed) .alreadyClaimed
  let amount ← rewardsForLp score rewards totalScore
  return (s, config.poolId, score, amount)

def claimRewardsByLp (s : Chain AccountId AuthorityId A cfg) (lp : AccountId) (market : TradingPair)
    (maker : AccountId) (epoch : ℕ) :
    Except DispatchError (Chain AccountId AuthorityId A cfg) := do
  let (s, pool, score, amount) ← lpClaim s lp market maker epoch
  let s ← onStorage s (RewardsAccount.transferAllowDeath · pool lp amount)
  let (scores, totalScore, mmClaimed) := s.world.liquidityProviders (epoch, pool)
  return { s with world := { s.world with
    liquidityProviders := update s.world.liquidityProviders (epoch, pool)
      (scores.insert lp (score, true), totalScore, mmClaimed) } }

-- The commission, which is not taken from the parts of the providers.
def rewardsForMm (commission : Decimal) (rewards : ℕ) : Except DispatchError ℕ := do
  let rewards ← Ocex.State.divUnit rewards
  Storage.toBalance (commission.saturatingMul rewards)

-- The claim of a market maker: the pool that pays, and the amount.
def mmClaim (s : Chain AccountId AuthorityId A cfg) (maker : AccountId) (market : TradingPair)
    (epoch : ℕ) : Except DispatchError (Chain AccountId AuthorityId A cfg × AccountId × ℕ) := do
  let config ← orElse .unknownPool (s.world.pools (market, maker))
  let (s, rewards) ← poolRewards s market config.poolId epoch
  let (_, _, alreadyClaimed) := s.world.liquidityProviders (epoch, config.poolId)
  ensure (!alreadyClaimed) .alreadyClaimed
  let amount ← rewardsForMm config.commission rewards
  return (s, config.poolId, amount)

def claimRewardsByMm (s : Chain AccountId AuthorityId A cfg) (maker : AccountId)
    (market : TradingPair) (epoch : ℕ) :
    Except DispatchError (Chain AccountId AuthorityId A cfg) := do
  let (s, pool, amount) ← mmClaim s maker market epoch
  let s ← onStorage s (RewardsAccount.transferAllowDeath · pool maker amount)
  let (scores, totalScore, _) := s.world.liquidityProviders (epoch, pool)
  return { s with world := { s.world with
    liquidityProviders := update s.world.liquidityProviders (epoch, pool)
      (scores, totalScore, true) } }

inductive TransactionSource
  | inBlock
  | local
  | external
deriving DecidableEq

-- The unsigned transaction with the scores is only valid while a snapshot is taken.
def validateUnsigned (w : Storage AccountId A) (source : TransactionSource) :
    Except DispatchError Unit :=
  if w.snapshotFlag = false ∨ source = .external then .error (.other "InvalidTransaction::Call")
  else .ok ()

-- The scores of a pool replace those that are stored for the epoch, and nobody has claimed by them.
def storeScores (w : Storage AccountId A)
    (entry : (TradingPair × AccountId × ℕ) × (Std.TreeMap AccountId (ℕ × Bool) × ℕ)) :
    Except DispatchError (Storage AccountId A) := do
  let ((market, maker, epoch), (scores, totalScore)) := entry
  let config ← orElse .unknownPool (w.pools (market, maker))
  return { w with
    liquidityProviders := update w.liquidityProviders (epoch, config.poolId)
      (scores, totalScore, false) }

def submitScoresOfLps (s : Chain AccountId AuthorityId A cfg) (results : LMPScoreSheet AccountId) :
    Except DispatchError (Chain AccountId AuthorityId A cfg) :=
  onStorage s fun w => do
    let w ← results.foldlM storeScores w
    return { w with snapshotFlag := false }

end Rewards

section Claims

variable [Ocex.Assets AccountId A] [Fungibles AccountId A]

-- The part of a balance for some of the shares.
def amountToClaim (balance shares issuance : ℕ) : Except DispatchError ℕ :=
  if issuance = 0 then .error Error.invalidTotalIssuance.dispatch
  else .ok (min (balance * shares) (Word.max 128) / issuance)

-- The balance of the base asset is used for both assets.
def claimForceClosedPoolFunds (s : Chain AccountId AuthorityId A cfg) (lp : AccountId)
    (market : TradingPair) (maker : AccountId) :
    Except DispatchError (Chain AccountId AuthorityId A cfg) := do
  let config ← orElse .unknownPool (s.world.pools (market, maker))
  ensure config.forceClosed .poolNotForceClosed
  let assets := s.world.assets
  let shares := Fungibles.reducibleBalance assets config.shareId lp
  let issuance := Fungibles.totalIssuance AccountId assets config.shareId
  let base ← orElse .conversionError (assetId market.base)
  let baseBalance := Fungibles.reducibleBalance assets base config.poolId
  let baseAmount ← amountToClaim baseBalance shares issuance
  let quoteBalance := Fungibles.reducibleBalance assets base config.poolId
  let quoteAmount ← amountToClaim quoteBalance shares issuance
  let assets ← Fungibles.burnFrom assets config.shareId lp shares .force
  let assets ← Ocex.Assets.transferOther assets base config.poolId lp baseAmount
  let quote ← orElse .conversionError (assetId market.quote)
  let assets ← Ocex.Assets.transferOther assets quote config.poolId lp quoteAmount
  return { s with world := { s.world with assets := assets } }

end Claims

-- The calls of the pallet, and those of the exchange.
inductive Call (AccountId AuthorityId AuthoritySignature : Type) [Ord AccountId]
  | ocex (call : Ocex.LmpCall AccountId AuthorityId AuthoritySignature)
  | registerPool (maker : AccountId) (name : Vector UInt8 10) (market : TradingPair)
      (commission exitFee : ℕ) (publicFundsAllowed : Bool) (tradingAccount : AccountId)
  | addLiquidity (id : ℕ) (lp : AccountId) (market : TradingPair) (maker : AccountId)
      (baseAmount maxQuoteAmount : ℕ)
  | removeLiquidity (lp : AccountId) (market : TradingPair) (maker : AccountId) (shares : ℕ)
  | forceClosePool (market : TradingPair) (maker : AccountId)
  | claimRewardsByLp (lp : AccountId) (market : TradingPair) (maker : AccountId) (epoch : ℕ)
  | claimRewardsByMm (maker : AccountId) (market : TradingPair) (epoch : ℕ)
  | submitScoresOfLps (source : TransactionSource) (results : LMPScoreSheet AccountId)
  | initiateWithdrawal (maker : AccountId) (market : TradingPair) (epoch numRequests : ℕ)
  | claimForceClosedPoolFunds (lp : AccountId) (market : TradingPair) (maker : AccountId)

-- What the exchange offers to this pallet cannot be called from outside.
def isInternal : Ocex.LmpCall AccountId AuthorityId AuthoritySignature → Bool
  | .call (.addLiquidity ..) | .call (.removeLiquidity ..) | .call (.forceClosePool ..) => true
  | _ => false

variable [DecidableEq AccountId] [Ocex.PalletAccounts AccountId] [Ocex.Assets AccountId A]
  [Ocex.CrossChainGadget AccountId A] [RewardsAccount AccountId A] [Fungibles AccountId A]
  [PoolAccounts AccountId] [Ocex.Percent] [Ocex.Authority AccountId AuthorityId AuthoritySignature]
  [Decimal.Arith]

def dispatch (s : Chain AccountId AuthorityId A cfg) :
    Call AccountId AuthorityId AuthoritySignature →
    Except DispatchError (Chain AccountId AuthorityId A cfg)
  | .ocex call => if isInternal call then .error (.other "CallFiltered") else Ocex.lmpDispatch s call
  | .registerPool maker name market commission exitFee publicFundsAllowed tradingAccount =>
    registerPool s maker name market commission exitFee publicFundsAllowed tradingAccount
  | .addLiquidity id lp market maker baseAmount maxQuoteAmount =>
    addLiquidity s id lp market maker baseAmount maxQuoteAmount
  | .removeLiquidity lp market maker shares => removeLiquidity s lp market maker shares
  | .forceClosePool market maker => forceClosePool s market maker
  | .claimRewardsByLp lp market maker epoch => claimRewardsByLp s lp market maker epoch
  | .claimRewardsByMm maker market epoch => claimRewardsByMm s maker market epoch
  | .submitScoresOfLps source results => do
    validateUnsigned s.world source
    submitScoresOfLps s results
  | .initiateWithdrawal maker market epoch numRequests =>
    initiateWithdrawal s maker market epoch numRequests
  | .claimForceClosedPoolFunds lp market maker => claimForceClosedPoolFunds s lp market maker

def step (s : Chain AccountId AuthorityId A cfg) (c : Call AccountId AuthorityId AuthoritySignature) :
    Option (Chain AccountId AuthorityId A cfg) :=
  (dispatch s c).toOption

-- Currencies for examples.
namespace Mock

open Ocex.Mock (Account World)

-- The balances, and the assets that were created.
structure Bank where
  balances : World
  created : ℕ → Bool

namespace Bank

def onBalances (b : Bank) (f : World → Except DispatchError World) : Except DispatchError Bank :=
  (f b.balances).map fun balances => { b with balances := balances }

def issuance (b : Bank) (id : ℕ) : ℕ :=
  ∑ account, b.balances account (.asset id)

def create (b : Bank) (id : ℕ) : Except DispatchError Bank :=
  if b.created id ∨ b.issuance id ≠ 0 then .error (.other "InUse")
  else .ok { b with created := update b.created id true }

def setBalance (world : World) (account : Account) (asset : AssetId) (amount : ℕ) : World :=
  update world account (update (world account) asset amount)

def mint (id : ℕ) (account : Account) (amount : ℕ) (world : World) : Except DispatchError World :=
  .ok (setBalance world account (.asset id) (world account (.asset id) + amount))

def burn (id : ℕ) (account : Account) (amount : ℕ) (world : World) : Except DispatchError World :=
  if world account (.asset id) < amount then .error (.other "FundsUnavailable")
  else .ok (setBalance world account (.asset id) (world account (.asset id) - amount))

-- One planck stays in the account.
def transferPreserve (id : ℕ) (payer payee : Account) (amount : ℕ) (world : World) :
    Except DispatchError World :=
  if world payer (.asset id) ≤ amount then .error (.other "NotExpendable")
  else Ocex.Mock.transfer world (.asset id) payer payee amount

end Bank

instance : Ocex.Assets Account Bank where
  transferNative b payer payee amount :=
    b.onBalances (Ocex.Assets.transferNative · payer payee amount)
  transferOther b id payer payee amount :=
    b.onBalances (Ocex.Assets.transferOther · id payer payee amount)
  burnNative b account amount :=
    (Ocex.Assets.burnNative b.balances account amount).map fun balances => { b with balances := balances }
  reducibleNative b account := Ocex.Assets.reducibleNative b.balances account

instance : Ocex.CrossChainGadget Account Bank where
  parachainWithdraw _ _ _ _ _ _ _ _ := .error (.other "InvalidDestination")

instance : RewardsAccount Account Bank where
  rewardsAccount := 7
  transferAllowDeath b payer payee amount :=
    b.onBalances (Ocex.Assets.transferNative · payer payee amount)

instance : Fungibles Account Bank where
  minimumNative _ := 1
  minimumBalance _ _ := 1
  totalIssuance := Bank.issuance
  reducibleBalance b id account := b.balances account (.asset id)
  create b id _ _ := b.create id
  mintInto b id account amount := b.onBalances (Bank.mint id account amount)
  burnFrom b id account amount _ := b.onBalances (Bank.burn id account amount)
  transferPreserve b id payer payee amount := b.onBalances (Bank.transferPreserve id payer payee amount)

-- A market maker has one pool.
instance : PoolAccounts Account where
  createPoolAccount maker _ := (maker + 4, 100 + (maker + 4).val)

end Mock

end LiquidityMining
