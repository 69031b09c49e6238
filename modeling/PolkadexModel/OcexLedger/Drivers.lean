import PolkadexModel.OcexLedger.Extract
import PolkadexModel.Ocex.HashDb

namespace OcexLedger

open Ocex.Storage (bytesOf keyPrefix stateInfoKey)

section Balances

inductive Asset
  | pdex
  | asset (id : ℕ)
  deriving DecidableEq

def Asset.text : Asset → String
  | .pdex => "PDEX"
  | .asset id => toString id

-- An amount: its sign, its digits as a number, and how many of them are behind the point.
structure Amount where
  negative : Bool
  mantissa : ℕ
  scale : ℕ
  deriving DecidableEq

def maxScale : ℕ :=
  28

def decodeAssetId : Decoder Asset
  | [] => .error .indexError
  | tag :: data =>
    if tag = 0 then .ok (.asset (leNat (data.take 16)), data.drop 16)
    else if tag = 1 then .ok (.pdex, data)
    else .error (.badAssetTag tag)

def decodeDecimal : Decoder Amount := fun data => do
  let flags ← unpack 4 data
  let hi ← unpack 4 (data.drop 4)
  let lo ← unpack 4 (data.drop 8)
  let mid ← unpack 4 (data.drop 12)
  let mant := hi * 2 ^ 64 + mid * 2 ^ 32 + lo
  let scale := flags / 2 ^ 16 % 2 ^ 8
  if maxScale < scale then throw (.badDecimalScale scale)
  else return ({ negative := flags.testBit 31 && mant ≠ 0, mantissa := mant, scale := scale }, data.drop 16)

def decodeEntries : ℕ → (AList fun _ : Asset => Amount) → Decoder (AList fun _ : Asset => Amount)
  | 0, out, data => .ok (out, data)
  | n + 1, out, data => do
    let (a, data) ← decodeAssetId data
    let (d, data) ← decodeDecimal data
    decodeEntries n (out.insert a d) data

-- The position behind a compact number. It may be behind the end of the data.
def compactEnd : Bytes → ℕ
  | [] => 0
  | b0 :: _ =>
    match b0.toNat % 4 with
    | 0 => 1
    | 1 => 2
    | 2 => 4
    | _ => b0.toNat / 4 + 5

def decodeBalances (data : Bytes) : Except Failure (AList fun _ : Asset => Amount) := do
  let (n, rest) ← compact data
  let (out, rest) ← decodeEntries n ∅ rest
  if rest = [] ∧ compactEnd data ≤ data.length then return out else throw .trailingBytes

end Balances

section Export

-- Why nothing is written.
inductive Stop
  | walk (e : Failure)
  | stateInfo
  | noEntries
  | undecoded (accounts : List Bytes)
  deriving DecidableEq

structure CsvRow where
  account : Bytes
  asset : Asset
  balance : Amount
  deriving DecidableEq

structure Ledger where
  accounts : AList fun _ : Bytes => AList fun _ : Asset => Amount
  failed : AList fun _ : Bytes => Failure

def Ledger.add (l : Ledger) (row : Bytes × Bytes) : Except Stop Ledger :=
  if row.1 = stateInfoKey then if row.2.length < 28 then .error .stateInfo else .ok l
  else if row.1.length = 32 then
    match decodeBalances row.2 with
    | .ok balances => .ok { l with accounts := l.accounts.insert row.1 balances }
    | .error e => .ok { l with failed := l.failed.insert row.1 e }
  else .ok l

-- The lines of the file: by account, and by the name of the asset.
def Ledger.csv (l : Ledger) : List CsvRow :=
  (l.accounts.entries.insertionSort fun a b => a.1 ≤ b.1).flatMap fun acct =>
    (acct.2.entries.insertionSort fun a b => a.1.text ≤ b.1.text).map fun e =>
      { account := acct.1, asset := e.1, balance := e.2 }

def exportRows (rows : List (Bytes × Bytes)) : Except Stop (List CsvRow) := do
  let l ← rows.foldlM Ledger.add { accounts := ∅, failed := ∅ }
  if rows = [] then throw .noEntries
  else if l.failed.entries ≠ [] then throw (.undecoded (l.failed.keys.insertionSort (· ≤ ·)))
  else return l.csv

-- A run of `main` with the nodes of a driver, with verification on.
def extract (blake2 : Digest) (nodes : Bytes → Option Bytes) (root : Bytes) (fuel : ℕ) :
    Option (Except Stop (List CsvRow)) :=
  (walk blake2 nodes true fuel [(.hash root, [])]).map fun r =>
    match r with
    | .ok rows => exportRows rows
    | .error e => .error (.walk e)

end Export

section Database

def fullPrefix : Bytes :=
  bytesOf "storage" ++ keyPrefix

def named : List Bytes :=
  ["trie_root", "state_info", "snapshot_id", "worker_status", "hashed_null_node", "null_node_data"].map bytesOf

-- A column of the database: its keys are in order.
structure Column where
  name : String
  entries : List (Bytes × Bytes)
  sorted : (entries.map Prod.fst).Pairwise (· < ·)

structure Database where
  columns : List Column
  nodup : (columns.map (·.name)).Nodup

def Column.get (col : Column) (key : Bytes) : Option Bytes :=
  (col.entries.find? fun e => e.1 = key).map Prod.snd

-- The entries that an iterator gives from the first key with the prefix on.
def Column.scan (col : Column) : List (Bytes × Bytes) :=
  (col.entries.dropWhile fun e => e.1 < fullPrefix).takeWhile fun e => fullPrefix.isPrefixOf e.1

-- What follows the prefix in a key, and the hash at the end of it.
def rest (key : Bytes) : Bytes :=
  key.drop fullPrefix.length

def hashOf (key : Bytes) : Bytes :=
  (rest key).drop ((rest key).length - 32)

def isNode (key : Bytes) : Bool :=
  ¬(rest key ∈ named ∨ (rest key).length < 32)

-- The value of a node with its reference count, as the node has written it.
def decodeDbValue (raw : Bytes) : Except Failure (Bytes × ℤ) := do
  let (n, data) ← compact raw
  let rc ← unpack 4 (data.drop n)
  return (data.take n, if rc < 2 ^ 31 then rc else rc - 2 ^ 32)

def entryOf (raw : Bytes) : Bytes × Option ℤ :=
  match decodeDbValue raw with
  | .ok (val, rc) => (val, some rc)
  | .error _ => (raw, none)

end Database

-- The driver that has all nodes in memory.
section InMemory

-- Of two copies, the one with the higher reference count; the first one if they are equal.
def keep (prev : Option (Bytes × Option ℤ)) (e : Bytes × Option ℤ) : Bytes × Option ℤ :=
  match prev with
  | none => e
  | some p => if p.2.getD 0 < e.2.getD 0 then e else p

def loadEntry (nodes : Bytes → Option (Bytes × Option ℤ)) (kv : Bytes × Bytes) : Bytes → Option (Bytes × Option ℤ) :=
  if isNode kv.1 then Function.update nodes (hashOf kv.1) (some (keep (nodes (hashOf kv.1)) (entryOf kv.2)))
  else nodes

def loadOcexKeys (db : Database) : Bytes → Option (Bytes × Option ℤ) :=
  db.columns.foldl (fun nodes col => col.scan.foldl loadEntry nodes) fun _ => none

end InMemory

-- The driver that keeps only where the nodes are.
section LowMemory

def indexEntry (cf : String) (idx : Bytes → Option (String × Bytes)) (kv : Bytes × Bytes) :
    Bytes → Option (String × Bytes) :=
  if isNode kv.1 ∧ idx (hashOf kv.1) = none then Function.update idx (hashOf kv.1) (some (cf, kv.1)) else idx

def buildIndex (db : Database) : Bytes → Option (String × Bytes) :=
  db.columns.foldl (fun idx col => col.scan.foldl (indexEntry col.name) idx) fun _ => none

def LazyNodes.get (db : Database) (h : Bytes) : Option (Bytes × Option ℤ) := do
  let (cf, key) ← buildIndex db h
  let col ← db.columns.find? fun col => col.name = cf
  let v ← col.get key
  return entryOf v

end LowMemory

def inMemory (db : Database) (h : Bytes) : Option Bytes :=
  (loadOcexKeys db h).map Prod.fst

def lowMemory (db : Database) (h : Bytes) : Option Bytes :=
  (LazyNodes.get db h).map Prod.fst

end OcexLedger
