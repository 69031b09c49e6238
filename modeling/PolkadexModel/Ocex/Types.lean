import PolkadexModel.Lib.Decimal
import PolkadexModel.Lib.Bounded

namespace Ocex

-- How a computation can end without a result. An error is returned to the caller, while a panic
-- aborts the whole computation.
inductive Fault
  | error (message : String)
  | panic (message : String)
deriving DecidableEq

inductive AssetId
  | asset (id : ℕ)
  | polkadex
deriving DecidableEq, Ord

namespace AssetId

-- The native currency comes after the other assets.
def rank : AssetId → ℕ × ℕ
  | .asset id => (0, id)
  | .polkadex => (1, 0)

theorem compare_eq (a b : AssetId) :
    compare a b = compareLex (compareOn fun a => a.rank.1) (compareOn fun a => a.rank.2) a b := by
  cases a with
  | asset id =>
    cases b with
    | asset id' =>
      have h : (compare id id').then .eq = compare id id' := by cases compare id id' <;> rfl
      exact h
    | polkadex => rfl
  | polkadex => cases b <;> rfl

instance : Std.TransOrd AssetId := by
  have h : (compare : AssetId → AssetId → Ordering) =
    compareLex (compareOn fun a => a.rank.1) (compareOn fun a => a.rank.2) := funext₂ compare_eq
  rw [Std.TransOrd, h]
  infer_instance

instance : Std.LawfulEqOrd AssetId where
  eq_of_compare {a b} h := by
    rw [compare_eq, compareLex, Ordering.then_eq_eq] at h
    cases a <;> cases b <;> simp_all [compareOn, rank]

end AssetId

def unitBalance : ℕ :=
  1_000_000_000_000

-- One unit of an asset, in the smallest denomination.
def unitDecimal : Decimal :=
  .ofInt unitBalance (by decide)

structure TradingPair where
  base : AssetId
  quote : AssetId
deriving DecidableEq, Ord

namespace TradingPair

theorem compare_eq (a b : TradingPair) :
    compare a b = compareLex (compareOn base) (compareOn quote) a b := by
  cases a; cases b
  simp only [compare, instOrdTradingPair.ord, compareLex, compareOn]
  rw [Ordering.then_eq]

instance : Std.TransOrd TradingPair := by
  have h : (compare : TradingPair → TradingPair → Ordering) =
    compareLex (compareOn base) (compareOn quote) := funext₂ compare_eq
  rw [Std.TransOrd, h]
  infer_instance

instance : Std.LawfulEqOrd TradingPair where
  eq_of_compare {a b} h := by
    rw [compare_eq, compareLex, Ordering.then_eq_eq] at h
    cases a; cases b
    simpa [compareOn] using h

end TradingPair

structure TradingPairConfig where
  baseAsset : AssetId
  quoteAsset : AssetId
  priceTickSize : Decimal
  minVolume : Decimal
  maxVolume : Decimal
  qtyStepSize : Decimal
  operationalStatus : Bool
  baseAssetPrecision : ℕ
  quoteAssetPrecision : ℕ
deriving DecidableEq

namespace TradingPairConfig

def pair (config : TradingPairConfig) : TradingPair where
  base := config.baseAsset
  quote := config.quoteAsset

def ofPair (base quote : AssetId) : TradingPairConfig where
  baseAsset := base
  quoteAsset := quote
  minVolume := ⟨1, 8, by decide, by decide⟩
  maxVolume := .ofInt 1000000 (by decide)
  priceTickSize := ⟨1, 6, by decide, by decide⟩
  qtyStepSize := ⟨1, 3, by decide, by decide⟩
  operationalStatus := true
  baseAssetPrecision := 8
  quoteAssetPrecision := 8

end TradingPairConfig

def defaultFraction : Decimal :=
  ⟨1, 3, by decide, by decide⟩

structure FeeConfig where
  makerFraction : Decimal := defaultFraction
  takerFraction : Decimal := defaultFraction
deriving DecidableEq

instance : Inhabited FeeConfig where
  default := {}

inductive OrderSide
  | ask
  | bid
deriving DecidableEq

inductive OrderType
  | limit
  | market
deriving DecidableEq

-- The part of an order that its owner signs.
structure OrderPayload (AccountId : Type) where
  clientOrderId : ℕ
  user : AccountId
  mainAccount : AccountId
  pair : TradingPair
  side : OrderSide
  orderType : OrderType
  quoteOrderQuantity : Decimal
  qty : Decimal
  price : Decimal
  timestamp : ℤ
deriving DecidableEq

inductive WithdrawalDestination
  | polkadot (beneficiary : ℕ) (fee : Option (AssetId × ℕ))
deriving DecidableEq

-- The amount of a withdrawal is sent as a text, which need not be a number.
structure WithdrawPayloadCallByUser where
  assetId : AssetId
  amount : String
  timestamp : ℤ
  destinationNetwork : Option WithdrawalDestination
deriving DecidableEq

-- What a signature is made on: either the encoding of a payload, or its text in the brackets that a
-- browser extension puts around it.
inductive Signed (AccountId : Type)
  | order (payload : OrderPayload AccountId)
  | orderText (payload : OrderPayload AccountId)
  | withdrawal (payload : WithdrawPayloadCallByUser)
  | withdrawalText (payload : WithdrawPayloadCallByUser)
deriving DecidableEq

-- The signature scheme of the accounts.
class Verify (AccountId Signature : Type) where
  verify : Signature → Signed AccountId → AccountId → Bool

-- The number that a text denotes.
class FromText where
  parse : String → Option Decimal

structure Order (AccountId Signature : Type) where
  id : ℕ
  clientOrderId : ℕ
  user : AccountId
  mainAccount : AccountId
  pair : TradingPair
  side : OrderSide
  orderType : OrderType
  qty : Decimal
  price : Decimal
  quoteOrderQty : Decimal
  timestamp : ℤ
  signature : Signature

structure AccountAsset (AccountId : Type) where
  main : AccountId
  asset : AssetId
deriving DecidableEq

structure Trade (AccountId Signature : Type) where
  maker : Order AccountId Signature
  taker : Order AccountId Signature
  price : Decimal
  amount : Decimal

structure WithdrawalRequest (AccountId Signature : Type) where
  id : ℕ
  signature : Signature
  payload : WithdrawPayloadCallByUser
  main : AccountId
  proxy : AccountId

structure Withdrawal (AccountId : Type) where
  id : ℕ
  mainAccount : AccountId
  amount : Decimal
  asset : AssetId
  fees : Decimal
  stid : ℕ
  destination : Option WithdrawalDestination
deriving DecidableEq

structure LMPConfig where
  epoch : ℕ
  index : ℕ
deriving DecidableEq

structure LMPMarketConfig where
  weightage : Decimal
  minFeesPaid : Decimal
  minMakerVolume : Decimal
  maxSpread : Decimal
  minDepth : Decimal
deriving DecidableEq

structure LMPEpochConfig where
  totalLiquidityMiningRewards : Decimal
  totalTradingRewards : Decimal
  config : Std.TreeMap TradingPair LMPMarketConfig
  maxAccountsRewarded : ℕ
  claimSafetyPeriod : ℕ

instance : Inhabited LMPEpochConfig where
  default := ⟨0, 0, ∅, 20, 50400⟩

structure LMPMarketConfigWrapper where
  tradingPair : TradingPair
  marketWeightage : ℕ
  minFeesPaid : ℕ
  minMakerVolume : ℕ
  maxSpread : ℕ
  minDepth : ℕ

-- The messages from the chain to the engine.
inductive IngressMessages (AccountId : Type)
  | openTradingPair (config : TradingPairConfig)
  | updateTradingPair (config : TradingPairConfig)
  | registerUser (main proxy : AccountId)
  | deposit (id : ℕ) (main : AccountId) (asset : AssetId) (amount : Decimal)
  | addProxy (main proxy : AccountId)
  | removeProxy (main proxy : AccountId)
  | closeTradingPair (config : TradingPairConfig)
  | setExchangeState (state : Bool)
  | directWithdrawal (proxy : AccountId) (asset : AssetId) (amount : Decimal) (force : Bool)
  | updateFeeStructure (main : AccountId) (makerFraction takerFraction : Decimal)
  | withdrawTradingFees
  | addLiquidity (market : TradingPairConfig) (pool lp : AccountId)
      (totalShares baseDeposited quoteDeposited : Decimal)
  | removeLiquidity (market : TradingPairConfig) (pool lp : AccountId)
      (burnFrac totalShares : Decimal)
  | forceClosePool (market : TradingPairConfig) (pool : AccountId)
  | lmpConfig (config : LMPEpochConfig)
  | newLMPEpoch (epoch : ℕ)

-- The messages from the engine to the chain.
inductive EgressMessages (AccountId : Type)
  | addLiquidityResult (market : TradingPairConfig) (pool lp : AccountId)
      (issuedShares price totalInventory : Decimal)
  | removeLiquidityResult (market : TradingPairConfig) (pool lp : AccountId)
      (baseFreed quoteFreed : Decimal)
  | removeLiquidityFailed (market : TradingPairConfig) (pool lp : AccountId)
      (burnFrac totalShares baseFree quoteFree baseRequired quoteRequired : Decimal)
  | poolForceClosed (market : TradingPairConfig) (pool : AccountId) (baseFreed quoteFreed : Decimal)
  | tradingFees (fees : Std.TreeMap AssetId Decimal)
  | priceOracle (prices : Std.TreeMap TradingPair Decimal)

inductive UserActions (AccountId Signature : Type)
  | trade (trades : List (Trade AccountId Signature))
  | withdraw (request : WithdrawalRequest AccountId Signature)
  | blockImport (blk : ℕ) (engineMessages : IngressMessages AccountId → Option (EgressMessages AccountId))
      (priceOracle : Std.TreeMap TradingPair Decimal)
  | reset
  | withdrawV1 (request : WithdrawalRequest AccountId Signature) (stid : ℕ)
  | oneMinLMPReport (market : TradingPair) (totalScore : Decimal) (scores : AccountId → Option Decimal)

structure UserActionBatch (AccountId Signature : Type) where
  actions : List (UserActions AccountId Signature)
  stid : ℕ
  snapshotId : ℕ
  signature : Signature

structure StateInfo where
  lastBlock : ℕ := 0
  workerNonce : ℕ := 0
  stid : ℕ := 0
  snapshotId : ℕ := 0
deriving DecidableEq, Inhabited

-- The scores and the fees of the traders of a market, and their totals.
abbrev TradingPairMetricsMap (AccountId : Type) [Ord AccountId] :=
  Std.TreeMap TradingPair (Std.TreeMap AccountId (Decimal × Decimal) × (Decimal × Decimal))

structure SnapshotSummary (AccountId : Type) [Ord AccountId] where
  validatorSetId : ℕ
  snapshotId : ℕ
  stateHash : ℕ
  stateChangeId : ℕ
  lastProcessedBlk : ℕ
  withdrawals : List (Withdrawal AccountId)
  egressMessages : List (EgressMessages AccountId)
  traderMetrics : Option (TradingPairMetricsMap AccountId)

-- The weights of the markets add up to one.
def LMPEpochConfig.verify [Decimal.Arith] (config : LMPEpochConfig) : Bool :=
  let total := config.config.toList.foldl (fun total market => total.saturatingAdd market.2.weightage)
    (0 : Decimal)
  decide (total ≈ 1)

section Orders

variable {AccountId Signature : Type} [Verify AccountId Signature] [Decimal.Arith]

open Decimal (Arith)

namespace Order

def payload (o : Order AccountId Signature) : OrderPayload AccountId where
  clientOrderId := o.clientOrderId
  user := o.user
  mainAccount := o.mainAccount
  pair := o.pair
  side := o.side
  orderType := o.orderType
  quoteOrderQuantity := o.quoteOrderQty
  qty := o.qty
  price := o.price
  timestamp := o.timestamp

-- The account that the order names as its user signs the encoding, the main account signs the text.
def verifySignature (o : Order AccountId Signature) : Bool :=
  Verify.verify o.signature (.order o.payload) o.user ||
  Verify.verify o.signature (.orderText o.payload) o.mainAccount

-- The remainder of a division by zero is a panic.
def isMultiple (x y : Decimal) : Except Fault Bool :=
  match Arith.checkedRem x y with
  | none   => .error (.panic "Division by zero")
  | some r => .ok r.isZero

def verifyConfig (o : Order AccountId Signature) (config : TradingPairConfig) :
    Except Fault Bool :=
  let isMarketSame := o.pair.base = config.baseAsset ∧ o.pair.quote = config.quoteAsset
  let volume := o.price.saturatingMul o.qty
  match o.orderType, o.side with
  | .limit, _ =>
    if isMarketSame ∧ config.minVolume ≤ volume ∧ volume ≤ config.maxVolume then do
      if ← isMultiple o.price config.priceTickSize
      then isMultiple o.qty config.qtyStepSize
      else .ok false
    else
      .ok false
  | .market, .ask =>
    if isMarketSame then isMultiple o.qty config.qtyStepSize else .ok false
  | .market, .bid =>
    if isMarketSame ∧ config.minVolume ≤ o.quoteOrderQty ∧ o.quoteOrderQty ≤ config.maxVolume
    then isMultiple o.quoteOrderQty config.priceTickSize
    else .ok false

-- Amounts are kept with nine decimal places.
def roundingOff (a : Decimal) : Decimal :=
  a.truncate 9

end Order

namespace Trade

-- The order of one of the two parties.
def order (t : Trade AccountId Signature) (maker : Bool) : Order AccountId Signature :=
  if maker then t.maker else t.taker

def volume (t : Trade AccountId Signature) : Except Fault Decimal :=
  match Arith.checkedMul t.price t.amount with
  | none   => .error (.panic "Multiplication overflowed")
  | some v => .ok v

def credit (t : Trade AccountId Signature) (maker : Bool) :
    Except Fault (AccountAsset AccountId × Decimal) :=
  let user := t.order maker
  match user.side with
  | .ask => return (⟨user.mainAccount, user.pair.quote⟩, ← t.volume)
  | .bid => return (⟨user.mainAccount, user.pair.base⟩, t.amount)

def debit (t : Trade AccountId Signature) (maker : Bool) :
    Except Fault (AccountAsset AccountId × Decimal) :=
  let user := t.order maker
  match user.side with
  | .ask => return (⟨user.mainAccount, user.pair.base⟩, t.amount)
  | .bid => return (⟨user.mainAccount, user.pair.quote⟩, ← t.volume)

-- The two orders are checked one by one. Nothing relates them to each other, or to the price and the
-- amount of the trade.
def verify (t : Trade AccountId Signature) (config : TradingPairConfig) : Except Fault Bool := do
  if t.maker.verifySignature && t.taker.verifySignature then
    if ← t.maker.verifyConfig config then t.taker.verifyConfig config else return false
  else
    return false

end Trade

namespace WithdrawalRequest

variable [FromText]

def asset (r : WithdrawalRequest AccountId Signature) : AssetId :=
  r.payload.assetId

def amount (r : WithdrawalRequest AccountId Signature) : Option Decimal :=
  FromText.parse r.payload.amount

-- The account that the request names as its proxy signs the encoding, the main account signs the
-- text.
def verify (r : WithdrawalRequest AccountId Signature) : Bool :=
  Verify.verify r.signature (.withdrawal r.payload) r.proxy ||
  Verify.verify r.signature (.withdrawalText r.payload) r.main

def convert (r : WithdrawalRequest AccountId Signature) (stid : ℕ) :
    Option (Withdrawal AccountId) := do
  return {
    id := r.id
    mainAccount := r.main
    amount := ← r.amount
    asset := r.payload.assetId
    fees := 0
    stid := stid
    destination := r.payload.destinationNetwork }

end WithdrawalRequest

end Orders

end Ocex
