import PolkadexModel.Lib.RadixTree
import Mathlib.Data.List.AList

-- The encoding of tries in the layout of the node, LayoutV1 of sp-trie. The extractor reads what is written here.
namespace OcexLedger

abbrev Bytes := List UInt8

abbrev Nibble := Fin 16

abbrev Path := List Nibble

abbrev Trie := RadixTree 16 Bytes

-- A hash function with digests of 32 bytes.
structure Digest where
  hash : Bytes → Bytes
  length_hash : ∀ b, (hash b).length = 32

section Bytes

-- The lowest bytes of a number, the lowest one first.
def leBytes : ℕ → ℕ → Bytes
  | 0, _ => []
  | k + 1, n => UInt8.ofNat n :: leBytes k (n / 256)

def leNat : Bytes → ℕ
  | [] => 0
  | b :: l => b.toNat + 256 * leNat l

def hi (b : UInt8) : Nibble :=
  Fin.ofNat 16 (b.toNat / 16)

def lo (b : UInt8) : Nibble :=
  Fin.ofNat 16 b.toNat

def byte (h l : Nibble) : UInt8 :=
  UInt8.ofNat (16 * h + l)

def nibblesOf (key : Bytes) : Path :=
  key.flatMap fun b => [hi b, lo b]

-- Two nibbles a byte.
def pack : Path → Bytes
  | h :: l :: path => byte h l :: pack path
  | _ => []

end Bytes

-- The encoding of a length, which is a `u32`.
def scaleCompact (n : ℕ) : Bytes :=
  if n < 2 ^ 6 then leBytes 1 (4 * n)
  else if n < 2 ^ 14 then leBytes 2 (4 * n + 1)
  else if n < 2 ^ 30 then leBytes 4 (4 * n + 2)
  else 3 :: leBytes 4 n

-- The kinds of nodes, as their header tells them apart.
inductive Kind
  | empty
  | leaf
  | branch
  | branchVal
  | leafHashed
  | branchHashed
  deriving DecidableEq

-- The bits a header has for the number of nibbles, and what stands before them.
def Kind.bits : Kind → ℕ
  | .leafHashed => 5
  | .branchHashed => 4
  | _ => 6

def Kind.mark : Kind → ℕ
  | .empty => 0
  | .leaf => 0b01000000
  | .branch => 0b10000000
  | .branchVal => 0b11000000
  | .leafHashed => 0b00100000
  | .branchHashed => 0b00010000

-- The part of a number of nibbles that does not fit into the first byte, in bytes of which only the last is below 255.
def sizeBytes (rem : ℕ) : Bytes :=
  List.replicate ((rem - 1) / 255) 255 ++ [UInt8.ofNat ((rem - 1) % 255)]

def header (kind : Kind) (n : ℕ) : Bytes :=
  let max := 2 ^ kind.bits - 1
  if n < max then [UInt8.ofNat (kind.mark + n)]
  else UInt8.ofNat (kind.mark + max) :: sizeBytes (n - (max - 1))

-- The nibbles of a node. With an odd number of them, the first one has a byte of its own.
def pathBytes (path : Path) : Bytes :=
  if path.length % 2 = 0 then pack path else pack (0 :: path)

-- Values from this length on are stored by their hash.
def valueThreshold : ℕ :=
  33

def scaleBytes (b : Bytes) : Bytes :=
  scaleCompact b.length ++ b

section Encode

variable (blake2 : Digest)

def valueBytes (v : Bytes) : Bytes :=
  if v.length < valueThreshold then scaleBytes v else blake2.hash v

def leafKind (v : Bytes) : Kind :=
  if v.length < valueThreshold then .leaf else .leafHashed

def branchKind : Option Bytes → Kind
  | none => .branch
  | some v => if v.length < valueThreshold then .branchVal else .branchHashed

-- A child whose encoding is shorter than a hash stands in its parent.
def childBytes (b : Bytes) : Bytes :=
  if b.length < 32 then scaleBytes b else scaleBytes (blake2.hash b)

def bitmap (children : Nibble → Trie) : ℕ :=
  Nat.ofBits fun i => !(children i).isEmpty

def encode : Trie → Bytes
  | .empty => [0]
  | .leaf path v => header (leafKind v) path.length ++ pathBytes path ++ valueBytes blake2 v
  | .branch path v children =>
    header (branchKind v) path.length ++ pathBytes path ++ leBytes 2 (bitmap children) ++
      v.elim [] (valueBytes blake2) ++
      (List.finRange 16).flatMap fun i =>
        if (children i).isEmpty then [] else childBytes blake2 (encode (children i))

-- A value that is stored by its hash.
def storedValue (v : Bytes) : List Bytes :=
  if v.length < valueThreshold then [] else [v]

-- What is stored by its hash for a trie, besides its root: the longer nodes and values.
def storedBelow : Trie → List Bytes
  | .empty => []
  | .leaf _ v => storedValue v
  | .branch _ v children =>
    v.elim [] storedValue ++
      (List.finRange 16).flatMap fun i =>
        if (children i).isEmpty then []
        else (if (encode blake2 (children i)).length < 32 then [] else [encode blake2 (children i)]) ++
          storedBelow (children i)

def stored (t : Trie) : List Bytes :=
  encode blake2 t :: storedBelow blake2 t

def root (t : Trie) : Bytes :=
  blake2.hash (encode blake2 t)

end Encode

-- The trie of a map.
def trieOf (m : AList fun _ : Bytes => Bytes) : Trie :=
  .ofEntries (m.entries.map fun e => (nibblesOf e.1, e.2))

end OcexLedger
