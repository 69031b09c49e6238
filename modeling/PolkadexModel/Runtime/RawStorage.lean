import PolkadexModel.Lib.KeyStore
import PolkadexModel.Runtime.Migrations

-- The raw storage, in which the records of the accounts and the keys of the removed vesting pallet lie
-- next to each other, and the migration that goes over these keys while it changes the records.
namespace Runtime

open PdexMigration (LockIdentifier BalanceLock)

-- The keys are ordered byte by byte.
abbrev byteOrder : LinearOrder UInt8 where
  le_refl := UInt8.le_refl
  le_trans _ _ _ := UInt8.le_trans
  lt_iff_le_not_ge a b := by
    simp only [UInt8.le_iff_toNat_le, UInt8.lt_iff_toNat_lt]
    omega
  le_antisymm _ _ := UInt8.le_antisymm
  le_total := UInt8.le_total
  toDecidableLE := inferInstance
  toDecidableEq := inferInstance
  toDecidableLT := inferInstance

attribute [local instance] byteOrder

-- The prefixes of the pallets, and those of their items.
def systemPrefix : Key :=
  [0x26, 0xaa, 0x39, 0x4e, 0xea, 0x56, 0x30, 0xe0, 0x7c, 0x48, 0xae, 0x0c, 0x95, 0x58, 0xce, 0xf7]

def balancesPrefix : Key :=
  [0xc2, 0x26, 0x12, 0x76, 0xcc, 0x9d, 0x1f, 0x85, 0x98, 0xea, 0x4b, 0x6a, 0x74, 0xb1, 0x5c, 0x2f]

def accountItem : Key :=
  [0xb9, 0x9d, 0x88, 0x0e, 0xc6, 0x81, 0x79, 0x9c, 0x0c, 0xf3, 0x0e, 0x88, 0x86, 0x37, 0x1d, 0xa9]

def lastRuntimeUpgradeItem : Key :=
  [0xf9, 0xcc, 0xe9, 0xc8, 0x88, 0x46, 0x9b, 0xb1, 0xa0, 0xdc, 0xea, 0xa1, 0x29, 0x67, 0x2e, 0xf8]

def locksItem : Key :=
  [0x21, 0x8f, 0x26, 0xc7, 0x3a, 0xdd, 0x63, 0x48, 0x97, 0x55, 0x0b, 0x40, 0x03, 0xb2, 0x6b, 0xc6]

-- What the migration leaves to the framework. `V` are the values of the storage, with the records that can be
-- read from them and written as them. The hash is the one in the keys of a map, and the items are those whose
-- keys do not occur in the genesis storage.
structure Layout (AccountId V : Type) [Decode AccountId] where
  encode : AccountId → List UInt8
  blake2 : List UInt8 → List UInt8
  freezesItem : Key
  eventItems : List Key
  specVersion : V → Option ℕ
  account : V → Option AccountInfo
  -- The parts of a record that are not modelled, such as the nonce, stay as they are.
  putAccount : Option V → AccountInfo → V
  locks : V → Option (List BalanceLock)
  putLocks : List BalanceLock → V
  freezes : V → Option (List ℕ)
  events : KeyStore Key V → AccountId → Key → Option V
  decode_encode : ∀ who, Decode.decode (encode who) = some who
  length_blake2 : ∀ bytes, (blake2 bytes).length = 16
  length_freezesItem : freezesItem.length = 16
  freezesItem_ne : freezesItem ≠ locksItem
  length_eventItem : ∀ item ∈ eventItems, item.length = 16
  eventItem_ne : ∀ item ∈ eventItems, item ≠ accountItem
  account_putAccount : ∀ record a, account (putAccount record a) = some a
  locks_putLocks : ∀ l, locks (putLocks l) = some l

namespace RawStorage

variable {AccountId V : Type} [Decode AccountId] (L : Layout AccountId V)

-- The key of an account in a map.
def mapKey (map : Key) (who : AccountId) : Key :=
  map ++ (L.blake2 (L.encode who) ++ L.encode who)

def accountKey (who : AccountId) : Key :=
  mapKey L (systemPrefix ++ accountItem) who

def locksKey (who : AccountId) : Key :=
  mapKey L (balancesPrefix ++ locksItem) who

def freezesKey (who : AccountId) : Key :=
  mapKey L (balancesPrefix ++ L.freezesItem) who

def eventKeys : List Key :=
  L.eventItems.map (systemPrefix ++ ·)

-- A record that cannot be read counts as none.
def lastRuntimeUpgradeSpecVersion (s : KeyStore Key V) : ℕ :=
  ((s.get (systemPrefix ++ lastRuntimeUpgradeItem)).bind L.specVersion).getD 0

def entry (s : KeyStore Key V) (who : AccountId) : Entry where
  account := ((s.get (accountKey L who)).bind L.account).getD {}
  locks := ((s.get (locksKey L who)).bind L.locks).getD []
  freezes := ((s.get (freezesKey L who)).bind L.freezes).getD []

def putAccount (a : AccountInfo) (who : AccountId) (s : KeyStore Key V) : KeyStore Key V :=
  let key := accountKey L who
  s.set key (if 0 < a.providers ∨ 0 < a.sufficients then some (L.putAccount (s.get key) a) else none)

def putLocks (locks : List BalanceLock) (who : AccountId) (s : KeyStore Key V) : KeyStore Key V :=
  s.set (locksKey L who) (if locks = [] then none else some (L.putLocks locks))

def putEvents (events : Key → Option V) (s : KeyStore Key V) : KeyStore Key V :=
  (eventKeys L).foldl (fun s key => s.set key (events key)) s

def removeLock (c : Constants) (id : LockIdentifier) (s : KeyStore Key V) (who : AccountId) : KeyStore Key V :=
  let e := entry L s who
  let e' := e.removeLock c id
  -- The record of the account is not written if the mutation is refused.
  let s' := if e.Refuses c id then s else putAccount L e'.account who s
  putEvents L (L.events s who) (putLocks L e'.locks who s')

open ClearOrmlVestingLocks

-- One round of the loop.
def visit (c : Constants) (s : KeyStore Key V) (key : Key) : KeyStore Key V :=
  match (account key : Option AccountId) with
  | some who => removeLock L c vestingLockId s who
  | none     => s

def onRuntimeUpgrade (c : Constants) (fuel : ℕ) (s : KeyStore Key V) : Option (KeyStore Key V) :=
  if lastRuntimeUpgradeSpecVersion L s > fromSpec then some s
  else
    (s.walk (schedulesPrefix.isPrefixOf ·) (visit L c) fuel schedulesPrefix).map
      (·.clear (palletPrefix.isPrefixOf ·))

end RawStorage

end Runtime
