import PolkadexModel.Ocex.Validator

namespace Ocex

-- The balances of an account in the native currency and in the other assets.
class Balances (AccountId W : Type) where
  freeBalance : W → AccountId → ℕ
  reducibleBalance : W → ℕ → AccountId → ℕ

variable {AccountId AuthorityId W : Type} [Ord AccountId] {cfg : Config}

-- The keys as they are iterated over, each of them once.
structure InventoryKeys (chain : State AccountId AuthorityId W cfg) (s : OffchainState AccountId)
    extends StorageKeys chain s where
  nodup_accountIds : accountIds.Nodup
  nodup_assets : ∀ account, (assets account).Nodup

-- The amount of a deposit.
def IngressMessages.depositAmount : IngressMessages AccountId → Option (AssetId × Decimal)
  | .deposit _ _ asset amount => some (asset, amount)
  | _ => none

-- The blocks after the last one that was processed, up to the current one.
def unprocessedBlocks (lastProcessedBlk currentBlk : ℕ) : List ℕ :=
  if lastProcessedBlk < currentBlk then
    let first := Word.saturatingAdd 32 lastProcessedBlk 1
    List.range' first (currentBlk + 1 - first)
  else
    []

def State.queuedDeposits (chain : State AccountId AuthorityId W cfg) (info : StateInfo) :
    List (AssetId × Decimal) :=
  (unprocessedBlocks info.lastBlock (Word.saturatedInto 32 chain.currentBlockNumber)).flatMap
    fun blk => (chain.ingressMessages blk).toList.filterMap (·.depositAmount)

variable [Decimal.Arith]

-- The amount is added to the entry of its asset, if there is one.
def addToInventory (inventory : Std.TreeMap AssetId Decimal) (entry : AssetId × Decimal) :
    Std.TreeMap AssetId Decimal :=
  match inventory[entry.1]? with
  | none       => inventory.insert entry.1 entry.2
  | some total => inventory.insert entry.1 (total.saturatingAdd entry.2)

-- The balances of the main accounts. That of the pot is not among them.
def registeredAmounts {chain : State AccountId AuthorityId W cfg} {s : OffchainState AccountId}
    (keys : InventoryKeys chain s) : List (AssetId × Decimal) :=
  keys.accountIds.flatMap fun main =>
    (keys.assets main).map fun asset => (asset, s.getBalance main asset)

def offchainInventory {chain : State AccountId AuthorityId W cfg} {s : OffchainState AccountId}
    (keys : InventoryKeys chain s) : Std.TreeMap AssetId Decimal :=
  (registeredAmounts keys).foldl addToInventory ∅

variable [PalletAccounts AccountId] [Balances AccountId W]

namespace State

def custodyBalance (chain : State AccountId AuthorityId W cfg) : AssetId → ℕ
  | .polkadex => Balances.freeBalance chain.world (PalletAccounts.palletAccount : AccountId)
  | .asset id => Balances.reducibleBalance chain.world id (PalletAccounts.palletAccount : AccountId)

def getOnchainBalance (chain : State AccountId AuthorityId W cfg) (asset : AssetId) :
    Except DispatchError Decimal :=
  divUnit (chain.custodyBalance asset)

-- The deposits are added to a balance that they are already contained in.
def onchainInventory (chain : State AccountId AuthorityId W cfg) (info : StateInfo) :
    Except DispatchError (Std.TreeMap AssetId Decimal) := do
  let inventory ← chain.allowlistedToken.toList.foldlM (fun inventory asset => do
    return addToInventory inventory (asset, ← chain.getOnchainBalance asset)) ∅
  return (chain.queuedDeposits info).foldl addToInventory inventory

end State

def calculateInventoryDeviation {chain : State AccountId AuthorityId W cfg} (trie : Trie AccountId)
    (keys : InventoryKeys chain trie.state) :
    Except DispatchError (Std.TreeMap AssetId Decimal) := do
  let onchain ← chain.onchainInventory trie.loadStateInfo
  let offchain := offchainInventory keys
  return chain.allowlistedToken.toList.foldl (fun deviation asset =>
    deviation.insert asset ((onchain[asset]?.getD 0).saturatingSub (offchain[asset]?.getD 0))) ∅

namespace Mock

instance : Balances Account World where
  freeBalance world account := world account .polkadex
  reducibleBalance world id account := world account (.asset id)

end Mock

end Ocex
