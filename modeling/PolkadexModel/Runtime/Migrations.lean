import PolkadexModel.Lib.Updates
import PolkadexModel.Runtime.Balances

-- The migrations of the mainnet runtime which release the locks of removed pallets.
namespace Runtime

open PdexMigration (LockIdentifier BalanceLock)

abbrev BlockNumber := Fin (2 ^ 32)

-- The record of an account under a reward id, as far as it is read.
structure RewardInfoForAccount where
  isInitialized : Bool
  lockId : LockIdentifier
deriving DecidableEq

-- The storage of the removed pallets for rewards and for the token migration. Of the reward cycles only
-- the ids are read.
structure LegacyLocks (AccountId : Type) [Ord AccountId] where
  initializeRewards : List ℕ
  distributor : List (ℕ × AccountId × RewardInfoForAccount)
  operational : Bool
  lockedTokenHolders : Std.TreeMap AccountId BlockNumber

-- A raw key of the storage.
abbrev Key := List UInt8

structure State (AccountId : Type) [Ord AccountId] where
  entries : AccountId → Entry
  totalIssuance : ℕ
  blockNumber : BlockNumber
  lastRuntimeUpgradeSpecVersion : ℕ
  legacyLocks : LegacyLocks AccountId
  -- The raw keys of the removed vesting pallet, in their order.
  ormlVesting : List Key

-- The accounts with locks, in the order in which the storage map is iterated over.
structure LockKeys {AccountId : Type} [Ord AccountId] (s : State AccountId) where
  toList : List AccountId
  nodup : toList.Nodup
  mem_toList : ∀ who, who ∈ toList ↔ (s.entries who).locks ≠ []

-- The constants of the mainnet runtime.
def mainnet : Constants where
  existentialDeposit := 10 ^ 12
  maxConsumers := 64

-- How an account is identified in a raw key.
class Decode (AccountId : Type) where
  decode : List UInt8 → Option AccountId

variable {AccountId : Type} [Ord AccountId] [DecidableEq AccountId]

-- A loop over accounts that changes each of them in the same way.
def State.modifyAll (f : Entry → Entry) (accounts : List AccountId) (s : State AccountId) :
    State AccountId :=
  { s with entries := accounts.foldl (fun entries who => Updates.modify f who entries) s.entries }

-- The upgrade to the specification version 392 is the only one with which the migrations run.
def fromSpec : ℕ := 391

namespace FixBalancesFrozen

def fixFrozen (e : Entry) : Entry :=
  let maxLock := largest (e.locks.map (·.amount))
  if maxLock = 0 then e
  else if maxLock > e.data.frozen then
    { e with account := { e.account with data := { e.account.data with frozen := maxLock } } }
  else e

def onRuntimeUpgrade (s : State AccountId) (keys : LockKeys s) : State AccountId :=
  if s.lastRuntimeUpgradeSpecVersion > fromSpec then s else s.modifyAll fixFrozen keys.toList

end FixBalancesFrozen

namespace ClearOrmlVestingLocks

def palletPrefix : Key :=
  [0xd8, 0x48, 0x92, 0xf1, 0xdb, 0x5f, 0x9d, 0xfd, 0x80, 0xc5, 0x21, 0xd0, 0xa5, 0x64, 0x76, 0x50]

def schedulesPrefix : Key :=
  palletPrefix ++
    [0x9c, 0x80, 0x68, 0x50, 0xc4, 0xee, 0x3b, 0xc0, 0x6b, 0xa6, 0x2b, 0x09, 0x63, 0x18, 0xfe, 0x38]

def vestingLockId : LockIdentifier :=
  "ormlvest"

-- The loop goes from a key to the next one, as long as the key is one of a schedule.
def schedules (keys : List Key) : List Key :=
  (keys.dropWhile (· ≤ schedulesPrefix)).takeWhile (schedulesPrefix.isPrefixOf ·)

-- A hash of 16 bytes and the 32 bytes of the account stand behind the 32 bytes of the map.
def account [Decode AccountId] (key : Key) : Option AccountId :=
  if 80 ≤ key.length then Decode.decode ((key.drop 48).take 32) else none

def accounts [Decode AccountId] (s : State AccountId) : List AccountId :=
  (schedules s.ormlVesting).filterMap account

def onRuntimeUpgrade [Decode AccountId] (c : Constants) (s : State AccountId) : State AccountId :=
  if s.lastRuntimeUpgradeSpecVersion > fromSpec then s
  else
    { s.modifyAll (·.removeLock c vestingLockId) (accounts s) with
      ormlVesting := s.ormlVesting.filter (!palletPrefix.isPrefixOf ·) }

end ClearOrmlVestingLocks

namespace ClearRewardsAndMigrationLocks

def rewardsLockId : LockIdentifier :=
  "REWARDID"

def pdexMigrationLockId : LockIdentifier :=
  PdexMigration.migrationLock

def pdexMigrationLockPeriod : ℕ := 201600

structure ReleasableLocks (AccountId : Type) [Ord AccountId] where
  rewards : Std.TreeSet AccountId
  pdexMigration : Std.TreeSet AccountId

def hasLock (s : State AccountId) (who : AccountId) (id : LockIdentifier) : Bool :=
  (s.entries who).locks.any (·.id = id)

-- The counter of an account which nothing provides for is set directly.
def addConsumerRefIfMissing (e : Entry) : Entry :=
  if 0 < e.account.consumers ∨ (e.data.frozen = 0 ∧ e.data.reserved = 0) then e
  else
    match e.account.incConsumersWithoutLimit with
    | .ok account => { e with account }
    | .error _    => { e with account := { e.account with consumers := 1 } }

def remove (c : Constants) (id : LockIdentifier) (e : Entry) : Entry :=
  (addConsumerRefIfMissing e).removeLock c id

def releasable (s : State AccountId) (now : BlockNumber) : ReleasableLocks AccountId where
  rewards := .ofList <| (s.legacyLocks.distributor.filter fun ⟨rewardId, who, record⟩ =>
    record.isInitialized && record.lockId = rewardsLockId &&
      s.legacyLocks.initializeRewards.contains rewardId && hasLock s who rewardsLockId).map (·.2.1)
  pdexMigration :=
    if s.legacyLocks.operational then
      .ofList <| (s.legacyLocks.lockedTokenHolders.toList.filter fun ⟨who, mintedAt⟩ =>
        Word.saturatingAdd 32 mintedAt pdexMigrationLockPeriod ≤ now &&
          hasLock s who pdexMigrationLockId).map (·.1)
    else ∅

def onRuntimeUpgrade (c : Constants) (s : State AccountId) : State AccountId :=
  if s.lastRuntimeUpgradeSpecVersion > fromSpec then s
  else
    let found := releasable s s.blockNumber
    (s.modifyAll (remove c rewardsLockId) found.rewards.toList).modifyAll
      (remove c pdexMigrationLockId) found.pdexMigration.toList

end ClearRewardsAndMigrationLocks

-- The three migrations in the order of the runtime. The ones between them do not touch this storage.
def migrate [Decode AccountId] (c : Constants) (s : State AccountId) (keys : LockKeys s) :
    State AccountId :=
  ClearRewardsAndMigrationLocks.onRuntimeUpgrade c
    (ClearOrmlVestingLocks.onRuntimeUpgrade c (FixBalancesFrozen.onRuntimeUpgrade s keys))

end Runtime
