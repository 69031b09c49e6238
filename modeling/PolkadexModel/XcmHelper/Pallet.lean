import PolkadexModel.Lib.Run
import PolkadexModel.Ocex.Types

open Function

-- The pallet that executes the withdrawals to the other parachains.
namespace XcmHelper

open Ocex (AssetId)

inductive NetworkId
  | byGenesis (hash : List UInt8)
  | byFork (blockNumber : ℕ) (blockHash : List UInt8)
  | polkadot
  | kusama
  | westend
  | rococo
  | wococo
  | ethereum (chainId : ℕ)
  | bitcoinCore
  | bitcoinCash
deriving DecidableEq

inductive BodyId
  | unit
  | moniker (name : List UInt8)
  | index (n : ℕ)
  | executive
  | technical
  | legislative
  | judicial
  | defense
  | administration
  | treasury
deriving DecidableEq

inductive BodyPart
  | voice
  | members (count : ℕ)
  | fraction (nom denom : ℕ)
  | atLeastProportion (nom denom : ℕ)
  | moreThanProportion (nom denom : ℕ)
deriving DecidableEq

inductive Junction
  | parachain (id : ℕ)
  | accountId32 (network : Option NetworkId) (id : List UInt8)
  | accountIndex64 (network : Option NetworkId) (index : ℕ)
  | accountKey20 (network : Option NetworkId) (key : List UInt8)
  | palletInstance (index : ℕ)
  | generalIndex (index : ℕ)
  | generalKey (length : ℕ) (data : List UInt8)
  | onlyChild
  | plurality (id : BodyId) (part : BodyPart)
  | globalConsensus (network : NetworkId)
deriving DecidableEq

structure MultiLocation where
  parents : ℕ
  interior : List Junction
deriving DecidableEq

-- Of a location of an earlier version, only its conversion is used.
inductive VersionedMultiLocation
  | v2 (latest : Option MultiLocation)
  | v3 (location : MultiLocation)
deriving DecidableEq

def VersionedMultiLocation.toLatest : VersionedMultiLocation → Option MultiLocation
  | .v2 latest   => latest
  | .v3 location => some location

inductive XcmAssetId
  | concrete (location : MultiLocation)
  | abstract (key : List UInt8)
deriving DecidableEq

structure Withdraw where
  id : ℕ
  assetId : AssetId
  amount : ℕ
  destination : List UInt8
  feeAssetId : Option AssetId
  feeAmount : Option ℕ
  isBlocked : Bool
deriving DecidableEq

-- The fee, if both parts of it are given.
def Withdraw.fee (w : Withdraw) : Option (AssetId × ℕ) :=
  match w.feeAssetId, w.feeAmount with
  | some feeAssetId, some feeAmount => some (feeAssetId, feeAmount)
  | _, _ => none

-- The currency and the assets. `B` is the storage of their pallets.
class Resolver (AccountId Id : outParam Type) (B : Type) where
  mintNative  : B → AccountId → ℕ → Option B
  assetExists : B → Id → Bool
  create      : B → Id → AccountId → ℕ → Option B
  mintInto    : B → Id → AccountId → ℕ → Option B

-- The functions are those which the runtime provides.
structure Config (AccountId Id : Type) where
  palletAccount : AccountId
  nativeAssetId : Id
  maxWithdrawalsPerBlock : ℕ
  toId : AssetId → Id
  decodeLocation : List UInt8 → Option VersionedMultiLocation
  decodeAccount : List UInt8 → Option AccountId
  convertSibling : MultiLocation → Option AccountId

inductive Event
  | notAbleToDecodeDestination
  | notAbleToMintToken
  | notAbleToHandleDestination
  | parachainAssetNotMapped
deriving DecidableEq

-- What the pallets of the currency and the assets report about a mint.
structure Issue (AccountId : Type) where
  asset : AssetId
  who : AccountId
  amount : ℕ
deriving DecidableEq

structure State (AccountId Id B : Type) (cfg : Config AccountId Id) where
  pendingWithdrawals : ℕ → List Withdraw
  failedWithdrawals : ℕ → List Withdraw
  parachainAssets : AssetId → Option XcmAssetId
  assets : B
  issued : List (Issue AccountId)
  events : List Event

variable {AccountId Id B : Type} {cfg : Config AccountId Id}

def isPolkadexParachainDestination (destination : VersionedMultiLocation) : Bool :=
  destination.toLatest.any (·.parents = 0)

def getDestinationAccount (cfg : Config AccountId Id) (location : MultiLocation) : Option AccountId :=
  match location with
  | ⟨0, [.accountId32 _ id]⟩ => cfg.decodeAccount id
  | _ => none

-- The account of the sibling to which the native asset is sent.
def sovereignAccount (cfg : Config AccountId Id) (location : MultiLocation) (asset : AssetId) : Option AccountId :=
  match cfg.convertSibling location, asset with
  | some account, .polkadex => some account
  | _, _ => none

namespace State

def depositEvent (s : State AccountId Id B cfg) (e : Event) : State AccountId Id B cfg :=
  { s with events := s.events ++ [e] }

variable [DecidableEq Id] [Resolver AccountId Id B]

-- The flag says whether the deposit succeeded. An asset that has been created stays, even if its mint
-- fails.
def resolveDepositParachain (s : State AccountId Id B cfg) (asset : AssetId) (amount : ℕ) (who admin : AccountId)
    (minBalance : ℕ) : State AccountId Id B cfg × Bool :=
  let id := cfg.toId asset
  if id = cfg.nativeAssetId then
    match Resolver.mintNative s.assets who amount with
    | none => (s, false)
    | some assets => ({ s with assets, issued := s.issued ++ [⟨asset, who, amount⟩] }, true)
  else
    match if Resolver.assetExists s.assets id then some s.assets
      else Resolver.create s.assets id admin minBalance with
    | none => (s, false)
    | some assets =>
      match Resolver.mintInto assets id who amount with
      | none => ({ s with assets }, false)
      | some assets => ({ s with assets, issued := s.issued ++ [⟨asset, who, amount⟩] }, true)

-- The deposits of a withdrawal are made by the account of the pallet.
def deposit (s : State AccountId Id B cfg) (asset : AssetId) (amount : ℕ) (who : AccountId) :
    State AccountId Id B cfg × Bool :=
  s.resolveDepositParachain asset amount who cfg.palletAccount 1

def handleDeposit (s : State AccountId Id B cfg) (withdrawal : Withdraw) (location : VersionedMultiLocation) :
    State AccountId Id B cfg × Bool :=
  match location.toLatest.bind (getDestinationAccount cfg) with
  | none => (s, false)
  | some account => s.deposit withdrawal.assetId withdrawal.amount account

end State

-- The state of the loop: the withdrawals that failed so far are kept beside the storage.
structure Loop (AccountId Id B : Type) (cfg : Config AccountId Id) where
  state : State AccountId Id B cfg
  failed : List Withdraw

namespace Loop

def fail (l : Loop AccountId Id B cfg) (withdrawal : Withdraw) (e : Event) : Loop AccountId Id B cfg :=
  ⟨l.state.depositEvent e, l.failed ++ [withdrawal]⟩

-- The withdrawal fails if a deposit that is made for it does.
def resume (l : Loop AccountId Id B cfg) (withdrawal : Withdraw) (e : Event)
    (result : State AccountId Id B cfg × Bool) : Loop AccountId Id B cfg :=
  if result.2 then ⟨result.1, l.failed⟩ else fail ⟨result.1, l.failed⟩ withdrawal e

variable [DecidableEq Id] [Resolver AccountId Id B]

def deposit (l : Loop AccountId Id B cfg) (withdrawal : Withdraw) (asset : AssetId) (amount : ℕ)
    (who : AccountId) : Loop AccountId Id B cfg :=
  l.resume withdrawal .notAbleToMintToken (l.state.deposit asset amount who)

-- The body of the loop. The branch in which one of the two assets is not mapped does nothing.
def processWithdrawal (l : Loop AccountId Id B cfg) (withdrawal : Withdraw) : Loop AccountId Id B cfg :=
  if withdrawal.isBlocked then ⟨l.state, l.failed ++ [withdrawal]⟩
  else
    match cfg.decodeLocation withdrawal.destination with
    | none => l.fail withdrawal .notAbleToDecodeDestination
    | some destination =>
      if isPolkadexParachainDestination destination then
        l.resume withdrawal .notAbleToHandleDestination (l.state.handleDeposit withdrawal destination)
      else
        match withdrawal.fee with
        | some (feeAssetId, feeAmount) =>
          match l.state.parachainAssets withdrawal.assetId, l.state.parachainAssets feeAssetId with
          | some _, some _ =>
            l.deposit withdrawal withdrawal.assetId withdrawal.amount cfg.palletAccount
              |>.deposit withdrawal feeAssetId feeAmount cfg.palletAccount
          | _, _ => l
        | none =>
          match l.state.parachainAssets withdrawal.assetId with
          | none => l.fail withdrawal .parachainAssetNotMapped
          | some _ =>
            match destination with
            | .v2 _ => l.fail withdrawal .notAbleToDecodeDestination
            | .v3 location =>
              let l := match sovereignAccount cfg location withdrawal.assetId with
                | some account => l.deposit withdrawal withdrawal.assetId withdrawal.amount account
                | none => l
              l.deposit withdrawal withdrawal.assetId withdrawal.amount cfg.palletAccount

end Loop

namespace State

variable [DecidableEq Id] [Resolver AccountId Id B]

def nextBlock (n : ℕ) : ℕ :=
  Word.saturatingAdd 32 n 1

-- The queue of the block without the last withdrawals, which are processed.
def overflow (s : State AccountId Id B cfg) (n : ℕ) : List Withdraw :=
  (s.pendingWithdrawals n).take ((s.pendingWithdrawals n).length - cfg.maxWithdrawalsPerBlock)

-- The withdrawals are popped from the end.
def toProcess (s : State AccountId Id B cfg) (n : ℕ) : List Withdraw :=
  ((s.pendingWithdrawals n).drop
    ((s.pendingWithdrawals n).length - cfg.maxWithdrawalsPerBlock)).reverse

def requeue (s : State AccountId Id B cfg) (n : ℕ) : State AccountId Id B cfg :=
  let pending := update s.pendingWithdrawals n []
  { s with
    pendingWithdrawals :=
      if s.overflow n = [] then pending
      else update pending (nextBlock n) (pending (nextBlock n) ++ s.overflow n) }

def handleNewPendingWithdrawals (s : State AccountId Id B cfg) (n : ℕ) : State AccountId Id B cfg :=
  let l := (s.toProcess n).foldl Loop.processWithdrawal ⟨s.requeue n, []⟩
  if l.failed = [] then l.state
  else { l.state with failedWithdrawals := update l.state.failedWithdrawals n l.failed }

variable (blockDiff : ℕ) (decode : List UInt8 → Option (List Withdraw))

def executeDeposits (n : ℕ) (s : State AccountId Id B cfg) (deposits : List UInt8) :
    Except String (State AccountId Id B cfg) :=
  match decode deposits with
  | none => .error "xcm-helper execute_deposits: SCALE decode failed"
  | some deposits =>
    if deposits.length > cfg.maxWithdrawalsPerBlock then
      .error "xcm-helper execute_deposits: batch too large"
    else
      let block := Word.saturatingAdd 32 (Word.saturatedInto 32 n) (Word.saturatedInto 32 blockDiff)
      let pending := s.pendingWithdrawals
      .ok { s with pendingWithdrawals := update pending block (pending block ++ deposits) }

-- A message that fails leaves the state as it was.
def receive (n : ℕ) : State AccountId Id B cfg → List (List UInt8) → State AccountId Id B cfg :=
  Run.run fun s deposits => (s.executeDeposits blockDiff decode n deposits).toOption

-- The messages of a block are executed before or after the hook of the pallet.
def step (q : ℕ × State AccountId Id B cfg) (block : List (List UInt8) × List (List UInt8)) :
    Option (ℕ × State AccountId Id B cfg) :=
  let n := q.1 + 1
  let s := (q.2.receive blockDiff decode n block.1).handleNewPendingWithdrawals n
  some (n, s.receive blockDiff decode n block.2)

end State

end XcmHelper
