import PolkadexModel.Lib.Run
import PolkadexModel.Lib.Except

open Function

-- The storage of the off-chain worker: a trie behind a cache.
namespace Ocex.Storage

abbrev Bytes := List UInt8

-- The trie of the database. Its operations can fail if nodes are missing.
class TrieMut (τ : Type) where
  get : τ → Bytes → Except String (Option Bytes)
  insert : τ → Bytes → Bytes → Except String τ
  remove : τ → Bytes → Except String τ
  commit : τ → τ
  root : τ → ℕ

-- A trie with all of its nodes is a map. An empty value is a value.
class LawfulTrieMut (τ : Type) extends TrieMut τ where
  contents : τ → Bytes → Option Bytes
  get_eq : ∀ t key, get t key = .ok (contents t key)
  insert_eq : ∀ t key value, ∃ t', insert t key value = .ok t' ∧
    contents t' = update (contents t) key (some value)
  remove_eq : ∀ t key, ∃ t', remove t key = .ok t' ∧
    contents t' = update (contents t) key none
  commit_eq : ∀ t, contents (commit t) = contents t

structure OffchainState (τ : Type) where
  cache : Std.TreeMap Bytes Bytes
  trie : τ
  keysToRemove : Std.TreeSet Bytes

namespace OffchainState

variable {τ : Type}

def load (trie : τ) : OffchainState τ where
  cache := ∅
  trie := trie
  keysToRemove := ∅

-- A key is removed by its removal from the cache, and is remembered for the next commit.
def remove (s : OffchainState τ) (key : Bytes) : OffchainState τ :=
  { s with
    cache := s.cache.erase key
    keysToRemove := s.keysToRemove.insert key }

def insert (s : OffchainState τ) (key value : Bytes) : OffchainState τ :=
  { s with
    keysToRemove := s.keysToRemove.erase key
    cache := s.cache.insert key value }

variable [TrieMut τ]

-- What is read from the trie is kept in the cache. The keys to remove are not consulted.
def get (s : OffchainState τ) (key : Bytes) : Except String (OffchainState τ × Option Bytes) :=
  match s.cache[key]? with
  | some value => .ok (s, some value)
  | none => do
    match ← TrieMut.get s.trie key with
    | none       => return (s, none)
    | some value => return ({ s with cache := s.cache.insert key value }, some value)

-- An error ends the worker, and the state with it.
def commit (s : OffchainState τ) : Except String (OffchainState τ × ℕ) := do
  let trie ← s.cache.toList.foldlM (fun t entry => TrieMut.insert t entry.1 entry.2) s.trie
  let trie ← s.keysToRemove.toList.foldlM TrieMut.remove trie
  let trie := TrieMut.commit trie
  return ({ cache := ∅, trie := trie, keysToRemove := ∅ }, TrieMut.root trie)

end OffchainState

inductive Operation
  | get (key : Bytes)
  | insert (key value : Bytes)
  | remove (key : Bytes)
  | commit

section

variable {τ : Type} [TrieMut τ]

def OffchainState.step (s : OffchainState τ) : Operation → Option (OffchainState τ)
  | .get key          => (s.get key).toOption.map Prod.fst
  | .insert key value => some (s.insert key value)
  | .remove key       => some (s.remove key)
  | .commit           => s.commit.toOption.map Prod.fst

-- The answer to an operation, if it has one.
def OffchainState.reply (s : OffchainState τ) : Operation → Option (Option Bytes)
  | .get key => (s.get key).toOption.map Prod.snd
  | _        => none

end

-- The same operations on a map, on which a commit has no effect.
namespace Map

def step (m : Bytes → Option Bytes) : Operation → Option (Bytes → Option Bytes)
  | .get _            => some m
  | .insert key value => some (update m key (some value))
  | .remove key       => some (update m key none)
  | .commit           => some m

def reply (m : Bytes → Option Bytes) : Operation → Option (Option Bytes)
  | .get key => some (m key)
  | _        => none

end Map

end Ocex.Storage
