import PolkadexModel.Lib.RefCount
import PolkadexModel.Lib.Store
import PolkadexModel.Ocex.Storage

-- The database behind the trie, in the persistent local storage of the node.
namespace Ocex.Storage

-- The way to a node of the trie: whole bytes, and possibly half of one.
abbrev Path := Bytes × Option UInt8

def Path.root : Path :=
  ([], none)

-- A node which is stored under a hash of its own.
structure Node where
  path : Path
  value : Bytes
deriving DecidableEq

class Hasher (H : Type) where
  hash : Bytes → H
  asRef : H → Bytes
  length_asRef : ∀ h, (asRef h).length = 32
  zero : H

def bytesOf (text : String) : Bytes :=
  text.toList.map fun c => UInt8.ofNat c.toNat

def keyPrefix : Bytes :=
  bytesOf "offchain-ocex::"

def stateInfoKey : Bytes :=
  bytesOf "offchain-ocex::state_info"

-- What is stored under the keys of the nodes, and under the other keys that are read.
structure LocalStorage (H : Type) where
  nodes : RefCount.Store Bytes Bytes
  trieRoot : Option H
  hashedNullNodeValue : Option H
  nullNodeDataValue : Option Bytes

namespace LocalStorage

variable {H : Type} [Hasher H]

def empty : LocalStorage H where
  nodes _ := none
  trieRoot := none
  hashedNullNodeValue := none
  nullNodeDataValue := none

def hashedNullNode (s : LocalStorage H) : H :=
  s.hashedNullNodeValue.getD (Hasher.hash [0])

def nullNodeData (s : LocalStorage H) : Bytes :=
  s.nullNodeDataValue.getD [0]

def deriveStorageKey (key : Bytes) : Bytes :=
  keyPrefix ++ key

def prefixedKey (key : H) (path : Path) : Bytes :=
  path.1 ++ path.2.toList ++ Hasher.asRef key

def dbKey (key : H) (path : Path) : Bytes :=
  deriveStorageKey (prefixedKey key path)

def loadTrieRoot (s : LocalStorage H) : H :=
  s.trieRoot.getD Hasher.zero

def storeTrieRoot (s : LocalStorage H) (root : H) : LocalStorage H :=
  { s with trieRoot := some root }

def emplace (s : LocalStorage H) (key : H) (path : Path) (value : Bytes) : LocalStorage H :=
  if value = s.nullNodeData then s
  else { s with nodes := RefCount.emplace s.nodes (dbKey key path) value }

def insert (s : LocalStorage H) (path : Path) (value : Bytes) : LocalStorage H × H :=
  if value = s.nullNodeData then (s, s.hashedNullNode)
  else (s.emplace (Hasher.hash value) path value, Hasher.hash value)

variable [DecidableEq H]

def get (s : LocalStorage H) (key : H) (path : Path) : Option Bytes :=
  if key = s.hashedNullNode then some s.nullNodeData
  else RefCount.get s.nodes (dbKey key path)

def remove (s : LocalStorage H) (key : H) (path : Path) : LocalStorage H :=
  if key = s.hashedNullNode then s
  else { s with nodes := RefCount.remove s.nodes (dbKey key path) }

end LocalStorage

-- The calls of the database.
inductive HashDbCall (H : Type)
  | insert (path : Path) (value : Bytes)
  | emplace (key : H) (path : Path) (value : Bytes)
  | remove (key : H) (path : Path)

-- The nodes as they are stored, with counters of 32 bits.
structure NodeStore (H : Type) where
  nodes : RefCount.Machine.Store Bytes Bytes
  hashedNullNodeValue : Option H
  nullNodeDataValue : Option Bytes

namespace NodeStore

open LocalStorage (dbKey)

variable {H : Type} [Hasher H]

def empty : NodeStore H where
  nodes _ := none
  hashedNullNodeValue := none
  nullNodeDataValue := none

def hashedNullNode (s : NodeStore H) : H :=
  s.hashedNullNodeValue.getD (Hasher.hash [0])

def nullNodeData (s : NodeStore H) : Bytes :=
  s.nullNodeDataValue.getD [0]

def emplace (s : NodeStore H) (key : H) (path : Path) (value : Bytes) : NodeStore H :=
  if value = s.nullNodeData then s
  else { s with nodes := RefCount.Machine.emplace s.nodes (dbKey key path) value }

def insert (s : NodeStore H) (path : Path) (value : Bytes) : NodeStore H × H :=
  if value = s.nullNodeData then (s, s.hashedNullNode)
  else (s.emplace (Hasher.hash value) path value, Hasher.hash value)

variable [DecidableEq H]

def get (s : NodeStore H) (key : H) (path : Path) : Option Bytes :=
  if key = s.hashedNullNode then some s.nullNodeData
  else
    match s.nodes (dbKey key path) with
    | some (value, rc) => if 0 < rc then some value else none
    | none             => none

def contains (s : NodeStore H) (key : H) (path : Path) : Bool :=
  if key = s.hashedNullNode then true
  else
    match s.nodes (dbKey key path) with
    | some (_, rc) => 0 < rc
    | none         => false

def remove (s : NodeStore H) (key : H) (path : Path) : NodeStore H :=
  if key = s.hashedNullNode then s
  else { s with nodes := RefCount.Machine.remove s.nodes (dbKey key path) }

def call (s : NodeStore H) : HashDbCall H → NodeStore H
  | .insert path value      => (s.insert path value).1
  | .emplace key path value => s.emplace key path value
  | .remove key path        => s.remove key path

end NodeStore

-- What a commit writes into the trie. The keys to remove come after the cache.
structure Changes where
  cache : List (Bytes × Bytes)
  keysToRemove : List Bytes

def OffchainState.changes {τ : Type} (s : OffchainState τ) : Changes where
  cache := s.cache.toList
  keysToRemove := s.keysToRemove.toList

def Changes.apply (c : Changes) (m : Store Bytes Bytes) : Store Bytes Bytes :=
  c.keysToRemove.foldl Store.erase (c.cache.foldl (fun m entry => m.insert entry.1 entry.2) m)

-- The tries, by their contents. Of the nodes which a trie has before it is changed, some are
-- replaced and the others are kept; what it has afterwards are those and the created ones.
class TrieDb (H : Type) where
  root : Store Bytes Bytes → H
  nodes : Store Bytes Bytes → List Node
  replaced : Store Bytes Bytes → Changes → List Node
  kept : Store Bytes Bytes → Changes → List Node
  created : Store Bytes Bytes → Changes → List Node

section Writes

variable {H : Type} [Hasher H] [TrieDb H]

inductive Write (H : Type)
  | remove (key : H) (path : Path)
  | insert (path : Path) (value : Bytes)
  | storeTrieRoot (root : H)

def LocalStorage.write [DecidableEq H] (s : LocalStorage H) : Write H → LocalStorage H
  | .remove key path    => s.remove key path
  | .insert path value  => (s.insert path value).1
  | .storeTrieRoot root => s.storeTrieRoot root

-- The commit of a trie removes the replaced nodes before it inserts the created ones.
def commitWrites (m : Store Bytes Bytes) (c : Changes) : List (Write H) :=
  (TrieDb.replaced H m c).map (fun node => .remove (Hasher.hash node.value) node.path) ++
  (TrieDb.created H m c).map (fun node => .insert node.path node.value)

-- The root is stored at the end of a batch.
def batchWrites (m : Store Bytes Bytes) (c : Changes) : List (Write H) :=
  commitWrites m c ++ [.storeTrieRoot (TrieDb.root (c.apply m))]

end Writes

end Ocex.Storage
