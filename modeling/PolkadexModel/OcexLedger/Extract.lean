import PolkadexModel.OcexLedger.Layout

namespace OcexLedger

-- Why an extraction ends without a result.
inductive Failure
  | indexError
  | structError
  | unknownHeader (b : UInt8)
  | nodeNotFound (h : Bytes)
  | nodeMismatch (h : Bytes)
  | valueNotFound (h : Bytes)
  | valueMismatch (h : Bytes)
  | oddNibbles
  | badDecimalScale (scale : ℕ)
  | badAssetTag (tag : UInt8)
  | trailingBytes
  deriving DecidableEq

-- The decoders return what is left of the data in place of a position in it.
abbrev Decoder (α : Type) :=
  Bytes → Except Failure (α × Bytes)

-- `struct.unpack_from` of an unsigned integer of `k` bytes.
def unpack (k : ℕ) (data : Bytes) : Except Failure ℕ :=
  if data.length < k then .error .structError else .ok (leNat (data.take k))

def compact : Decoder ℕ
  | [] => .error .indexError
  | b0 :: data =>
    match b0.toNat % 4 with
    | 0 => .ok (b0.toNat / 4, data)
    | 1 => do
      let n ← unpack 2 (b0 :: data)
      return (n / 4, data.drop 1)
    | 2 => do
      let n ← unpack 4 (b0 :: data)
      return (n / 4, data.drop 3)
    | _ =>
      let n := b0.toNat / 4 + 4
      .ok (leNat (data.take n), data.drop n)

section Node

def sizeRest : ℕ → Decoder ℕ
  | _, [] => .error .indexError
  | n, x :: data => if x < 255 then .ok (n + (x.toNat + 1), data) else sizeRest (n + 255) data

def kindOf (b : UInt8) : Except Failure Kind :=
  if b.toNat / 64 = 0b01 then .ok .leaf
  else if b.toNat / 64 = 0b10 then .ok .branch
  else if b.toNat / 64 = 0b11 then .ok .branchVal
  else if b.toNat / 32 = 0b001 then .ok .leafHashed
  else if b.toNat / 16 = 0b0001 then .ok .branchHashed
  else .error (.unknownHeader b)

def decodeHeader : Decoder (Kind × ℕ)
  | [] => .error .indexError
  | b :: data =>
    if b = 0 then .ok ((.empty, 0), data)
    else do
      let kind ← kindOf b
      let maxv := 2 ^ kind.bits - 1
      let n := b.toNat % 2 ^ kind.bits
      if n = maxv then
        let (n, data) ← sizeRest (n - 1) data
        return ((kind, n), data)
      else return ((kind, n), data)

def decodePartial (nnibbles : ℕ) (data : Bytes) : Except Failure (Path × Bytes) :=
  let nbytes := (nnibbles + 1) / 2
  let raw := data.take nbytes
  if nnibbles % 2 = 1 then
    match raw with
    | [] => .error .indexError
    | b :: raw => .ok (lo b :: nibblesOf raw, data.drop nbytes)
  else .ok (nibblesOf raw, data.drop nbytes)

-- A node or a value: by its hash, or in place.
inductive Ref
  | hash (h : Bytes)
  | inline (b : Bytes)
  deriving DecidableEq

structure DecodedNode where
  nibbles : Path
  value : Option Ref
  children : List (Nibble × Ref)

def inlineBytes : Decoder Ref := fun data => do
  let (ln, data) ← compact data
  return (.inline (data.take ln), data.drop ln)

def decodeChild : Decoder Ref := fun data => do
  let (ln, data) ← compact data
  let child := data.take ln
  return (if ln = 32 then .hash child else .inline child, data.drop ln)

-- The children that the bitmap has, in order.
def decodeChildren (bitmap : ℕ) : List Nibble → Bytes → Except Failure (List (Nibble × Ref))
  | [], _ => .ok []
  | i :: is, data =>
    if bitmap.testBit i then do
      let (child, data) ← decodeChild data
      let children ← decodeChildren bitmap is data
      return (i, child) :: children
    else decodeChildren bitmap is data

def decodeValue (kind : Kind) (data : Bytes) : Except Failure (Option Ref × Bytes) :=
  if kind = .branchVal then do
    let (value, data) ← inlineBytes data
    return (some value, data)
  else if kind = .branchHashed then .ok (some (.hash (data.take 32)), data.drop 32)
  else .ok (none, data)

def decodeNode (data : Bytes) : Except Failure DecodedNode := do
  let ((kind, n), data) ← decodeHeader data
  if kind = .empty then return { nibbles := [], value := none, children := [] }
  else
    let (nibbles, data) ← decodePartial n data
    if kind = .leaf then
      let (value, _) ← inlineBytes data
      return { nibbles := nibbles, value := some value, children := [] }
    else if kind = .leafHashed then
      return { nibbles := nibbles, value := some (.hash (data.take 32)), children := [] }
    else
      let bitmap ← unpack 2 data
      let (value, data) ← decodeValue kind (data.drop 2)
      let children ← decodeChildren bitmap (List.finRange 16) data
      return { nibbles := nibbles, value := value, children := children }

end Node

section Walk

def prepend (rows : List (Bytes × Bytes)) (r : Option (Except Failure (List (Bytes × Bytes)))) :
    Option (Except Failure (List (Bytes × Bytes))) :=
  r.map fun r => r.map (rows ++ ·)

variable (blake2 : Digest) (nodes : Bytes → Option Bytes) (verify : Bool)

def load (notFound mismatch : Bytes → Failure) : Ref → Except Failure Bytes
  | .hash h =>
    match nodes h with
    | none => .error (notFound h)
    | some data => if verify ∧ blake2.hash data ≠ h then .error (mismatch h) else .ok data
  | .inline data => .ok data

-- The row for the value of a node, and the children to visit next.
def visit (ref : Ref) (path : Path) : Except Failure (List (Bytes × Bytes) × List (Ref × Path)) := do
  let data ← load blake2 nodes verify .nodeNotFound .nodeMismatch ref
  let node ← decodeNode data
  let full := path ++ node.nibbles
  let next := node.children.map fun c => (c.2, full ++ [c.1])
  match node.value with
  | none => return ([], next)
  | some value =>
    let vbytes ← load blake2 nodes verify .valueNotFound .valueMismatch value
    if full.length % 2 = 1 then throw .oddNibbles
    else return ([(pack full, vbytes)], next)

-- The rows of a walk, or its failure. It has not ended if the fuel is used up.
def walk : ℕ → List (Ref × Path) → Option (Except Failure (List (Bytes × Bytes)))
  | _, [] => some (.ok [])
  | 0, _ :: _ => none
  | fuel + 1, (ref, path) :: stack =>
    match visit blake2 nodes verify ref path with
    | .error e => some (.error e)
    | .ok (rows, next) => prepend rows (walk fuel (next ++ stack))

end Walk

end OcexLedger
