import PolkadexModel.Thea.Pallet
import PolkadexModel.XcmHelper.Pallet

-- The pallet as the asset transactor of the XCM executor.
namespace XcmHelper

open Ocex (AssetId)

inductive Fungibility
  | fungible (amount : ℕ)
  | nonFungible (instanceId : List UInt8)
deriving DecidableEq

structure MultiAsset where
  id : XcmAssetId
  kind : Fungibility
deriving DecidableEq

def getAmount : Fungibility → Option ℕ
  | .fungible amount => some amount
  | .nonFungible _   => none

inductive ExtraData
  | none
  | directDeposit
deriving DecidableEq

structure Deposit (AccountId : Type) where
  id : ℕ
  recipient : AccountId
  assetId : AssetId
  amount : ℕ
  extra : ExtraData
deriving DecidableEq

def isHomeNetwork (network : Option NetworkId) : Bool :=
  network = some .polkadot || network.isNone

def extractDataFromMultilocation : MultiLocation → Option (List UInt8 × ExtraData)
  | ⟨0, [.accountId32 network id]⟩                    =>
    if isHomeNetwork network then some (id, .none) else none
  | ⟨0, [.accountId32 network id, .palletInstance _]⟩ =>
    if isHomeNetwork network then some (id, .directDeposit) else none
  | _                                                 => none

inductive XcmError
  | failedToDecode
  | trap (code : ℕ)
deriving DecidableEq

-- The currency and the assets as far as they are burnt and transferred.
class AssetPallets (AccountId Id : outParam Type) (B : Type) extends Resolver AccountId Id B where
  burnNative     : B → AccountId → ℕ → Option B
  burnFrom       : B → Id → AccountId → ℕ → Option B
  transferNative : B → AccountId → AccountId → ℕ → Option B
  transfer       : B → Id → AccountId → AccountId → ℕ → Option B

-- The hashes and the codec are those of the primitives. If the executor of the messages is transactional,
-- an instruction which fails has no effect.
structure TransactorConfig (AccountId Id : Type) extends Config AccountId Id where
  parachainId : ℕ
  substrateNetworkId : Thea.Network
  hashAsset : XcmAssetId → ℕ
  hashNonce : Thea.Network → ℕ → ℕ
  encodeDeposits : List (Deposit AccountId) → Thea.Bytes
  fromBytes : List UInt8 → AccountId
  convertAccount : MultiLocation → Option AccountId
  transactional : Bool

inductive TransactorEvent (AccountId : Type)
  | assetDeposited (id : ℕ) (who : MultiLocation) (what : MultiAsset) (assetId : AssetId) (amount : ℕ)
      (extra : ExtraData)
  | siblingDeposit (who : MultiLocation) (what : MultiAsset)
  | xcmSiblingDepositFailed (who : MultiLocation) (what : MultiAsset)
  | tokenWhitelistedForXcm (token : AssetId)
  | whitelistedTokenRemoved (token : AssetId)
  | parachainAssetMapped (assetId : AssetId) (asset : XcmAssetId)
deriving DecidableEq

-- The storage of the pallet, together with that of the bridge.
structure Transactor (AccountId Id B TheaId Signature W : Type) (cfg : TransactorConfig AccountId Id)
    extends State AccountId Id B cfg.toConfig where
  whitelistedTokens : List AssetId
  randomnessNonce : ℕ
  thea : Thea.State AccountId TheaId Signature W
  reports : List (TransactorEvent AccountId)

variable {AccountId Id B TheaId Signature W : Type} {cfg : TransactorConfig AccountId Id}

-- The parachain as the other chains see it.
def TransactorConfig.ownLocation (cfg : TransactorConfig AccountId Id) : MultiLocation :=
  ⟨1, [.parachain cfg.parachainId]⟩

def TransactorConfig.isNative (cfg : TransactorConfig AccountId Id) (asset : XcmAssetId) : Bool :=
  asset = .concrete cfg.ownLocation || asset = .concrete ⟨0, []⟩

namespace Transactor

def report (s : Transactor AccountId Id B TheaId Signature W cfg) (e : TransactorEvent AccountId) :
    Transactor AccountId Id B TheaId Signature W cfg :=
  { s with reports := s.reports ++ [e] }

def insertParachainAsset (s : Transactor AccountId Id B TheaId Signature W cfg) (assetId : AssetId)
    (asset : XcmAssetId) : Transactor AccountId Id B TheaId Signature W cfg :=
  { s with parachainAssets := Function.update s.parachainAssets assetId (some asset) }

-- The id of an asset which is not native is stored when it is first used.
def generateAssetIdForParachain (s : Transactor AccountId Id B TheaId Signature W cfg) (asset : XcmAssetId) :
    Transactor AccountId Id B TheaId Signature W cfg × AssetId :=
  if cfg.isNative asset then (s, .polkadex)
  else
    let assetId := .asset (cfg.hashAsset asset)
    (if (s.parachainAssets assetId).isSome then s else s.insertParachainAsset assetId asset, assetId)

def convertAssetIdToLocation (s : Transactor AccountId Id B TheaId Signature W cfg) (assetId : AssetId) :
    Option MultiLocation :=
  match s.parachainAssets assetId with
  | some (.concrete location) => some location
  | some (.abstract _)        => none
  | none                      => none

def convertLocationToAssetId (s : Transactor AccountId Id B TheaId Signature W cfg) (location : MultiLocation) :
    Transactor AccountId Id B TheaId Signature W cfg × AssetId :=
  s.generateAssetIdForParachain (.concrete location)

def newRandomId (s : Transactor AccountId Id B TheaId Signature W cfg) :
    Transactor AccountId Id B TheaId Signature W cfg × ℕ :=
  let nonce := (s.randomnessNonce + 1) % 2 ^ 32
  ({ s with randomnessNonce := nonce }, cfg.hashNonce cfg.substrateNetworkId nonce)

section Assets

variable [DecidableEq Id] [AssetPallets AccountId Id B]

-- The failure of the deposit is reported only as an event.
def depositSibling (s : Transactor AccountId Id B TheaId Signature W cfg) (what : MultiAsset) (who : MultiLocation)
    (assetId : AssetId) (account : AccountId) (amount : ℕ) : Transactor AccountId Id B TheaId Signature W cfg :=
  let (helper, ok) := s.toState.deposit assetId amount account
  let s := { s with toState := helper }
  let s := if ok then s else s.report (.xcmSiblingDepositFailed who what)
  s.report (.siblingDeposit who what)

def queueDeposit (s : Transactor AccountId Id B TheaId Signature W cfg) (what : MultiAsset) (who : MultiLocation)
    (recipient : AccountId) (extra : ExtraData) (amount : ℕ) :
    Transactor AccountId Id B TheaId Signature W cfg × Except XcmError Unit :=
  let (s, assetId) := s.generateAssetIdForParachain what.id
  let (s, id) := s.newRandomId
  let deposit := { id, recipient, assetId, amount, extra }
  match s.thea.executeWithdrawals cfg.substrateNetworkId (cfg.encodeDeposits [deposit]) with
  | .error _ => (s, .error (.trap 102))
  | .ok thea => ({ s with thea }.report (.assetDeposited id who what assetId amount extra), .ok ())

-- What an instruction has done before it fails is in the storage that is returned.
def depositAsset (s : Transactor AccountId Id B TheaId Signature W cfg) (what : MultiAsset) (who : MultiLocation) :
    Transactor AccountId Id B TheaId Signature W cfg × Except XcmError Unit :=
  let (s, assetId) := s.generateAssetIdForParachain what.id
  match cfg.convertSibling who with
  | some account =>
    match getAmount what.kind with
    | none        => (s, .error (.trap 101))
    | some amount => (s.depositSibling what who assetId account amount, .ok ())
  | none =>
    match extractDataFromMultilocation who with
    | none                    => (s, .error (.trap 99))
    | some (recipient, extra) =>
      match getAmount what.kind with
      | none        => (s, .error (.trap 101))
      | some amount => s.queueDeposit what who (cfg.fromBytes recipient) extra amount

def resolverWithdrawParachain (b : B) (cfg : TransactorConfig AccountId Id) (asset : AssetId) (amount : ℕ)
    (who : AccountId) : Option B :=
  if cfg.toId asset = cfg.nativeAssetId then AssetPallets.burnNative b who amount
  else AssetPallets.burnFrom b (cfg.toId asset) who amount

def resolveTransfer (b : B) (cfg : TransactorConfig AccountId Id) (asset : AssetId) (amount : ℕ)
    (source target : AccountId) : Option B :=
  if cfg.toId asset = cfg.nativeAssetId then AssetPallets.transferNative b source target amount
  else AssetPallets.transfer b (cfg.toId asset) source target amount

def withAssets (s : Transactor AccountId Id B TheaId Signature W cfg) (code : ℕ) (assets : Option B) :
    Transactor AccountId Id B TheaId Signature W cfg × Except XcmError Unit :=
  match assets with
  | none        => (s, .error (.trap code))
  | some assets => ({ s with assets }, .ok ())

def withdrawAsset (s : Transactor AccountId Id B TheaId Signature W cfg) (what : MultiAsset) (who : MultiLocation) :
    Transactor AccountId Id B TheaId Signature W cfg × Except XcmError Unit :=
  match cfg.convertAccount who, getAmount what.kind with
  | none, _              => (s, .error .failedToDecode)
  | some _, none         => (s, .error (.trap 101))
  | some account, some amount =>
    let (s, assetId) := s.generateAssetIdForParachain what.id
    s.withAssets 110 (resolverWithdrawParachain s.assets cfg assetId amount account)

def transferAsset (s : Transactor AccountId Id B TheaId Signature W cfg) (asset : MultiAsset)
    (source target : MultiLocation) : Transactor AccountId Id B TheaId Signature W cfg × Except XcmError Unit :=
  match cfg.convertAccount source, cfg.convertAccount target, getAmount asset.kind with
  | some source, some target, some amount =>
    let (s, assetId) := s.generateAssetIdForParachain asset.id
    s.withAssets 102 (resolveTransfer s.assets cfg assetId amount source target)
  | some _, some _, none => (s, .error (.trap 101))
  | _, _, _              => (s, .error .failedToDecode)

def whitelistToken (s : Transactor AccountId Id B TheaId Signature W cfg) (token : XcmAssetId) :
    Option (Transactor AccountId Id B TheaId Signature W cfg) := do
  let (s, token) := s.generateAssetIdForParachain token
  guard (token ∉ s.whitelistedTokens)
  guard (cfg.toId token ≠ cfg.nativeAssetId)
  guard ¬Resolver.assetExists s.assets (cfg.toId token)
  let assets ← Resolver.create s.assets (cfg.toId token) cfg.palletAccount 1
  return { s with assets, whitelistedTokens := s.whitelistedTokens ++ [token] }.report
    (.tokenWhitelistedForXcm token)

def removeWhitelistedToken (s : Transactor AccountId Id B TheaId Signature W cfg) (token : XcmAssetId) :
    Option (Transactor AccountId Id B TheaId Signature W cfg) := do
  let (s, token) := s.generateAssetIdForParachain token
  guard (token ∈ s.whitelistedTokens)
  return { s with whitelistedTokens := s.whitelistedTokens.erase token }.report (.whitelistedTokenRemoved token)

-- Any asset may be stored under any id.
def insertAsset (s : Transactor AccountId Id B TheaId Signature W cfg) (assetId : AssetId) (asset : XcmAssetId) :
    Transactor AccountId Id B TheaId Signature W cfg :=
  (s.insertParachainAsset assetId asset).report (.parachainAssetMapped assetId asset)

-- The instructions of the messages, the calls that governance makes, the conversions which other pallets
-- ask for, and the beginning of a block.
inductive Call
  | depositAsset (what : MultiAsset) (who : MultiLocation)
  | withdrawAsset (what : MultiAsset) (who : MultiLocation)
  | transferAsset (asset : MultiAsset) (source target : MultiLocation)
  | convertLocationToAssetId (location : MultiLocation)
  | whitelistToken (token : XcmAssetId)
  | removeWhitelistedToken (token : XcmAssetId)
  | insertAsset (assetId : AssetId) (asset : XcmAssetId)
  | onInitialize (n : ℕ)
deriving DecidableEq

def commit (result : Transactor AccountId Id B TheaId Signature W cfg × Except XcmError Unit) :
    Option (Transactor AccountId Id B TheaId Signature W cfg) :=
  match result.2 with
  | .ok _    => some result.1
  | .error _ => if cfg.transactional then none else some result.1

def dispatch (s : Transactor AccountId Id B TheaId Signature W cfg) :
    Call → Option (Transactor AccountId Id B TheaId Signature W cfg)
  | .depositAsset what who              => commit (s.depositAsset what who)
  | .withdrawAsset what who             => commit (s.withdrawAsset what who)
  | .transferAsset asset source target  => commit (s.transferAsset asset source target)
  | .convertLocationToAssetId location  => some (s.convertLocationToAssetId location).1
  | .whitelistToken token               => s.whitelistToken token
  | .removeWhitelistedToken token       => s.removeWhitelistedToken token
  | .insertAsset assetId asset          => some (s.insertAsset assetId asset)
  | .onInitialize n                     => some { s with toState := s.toState.handleNewPendingWithdrawals n }

end Assets

end Transactor

end XcmHelper
