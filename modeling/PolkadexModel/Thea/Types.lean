import PolkadexModel.Lib.Bounded
import Std.Data.TreeMap.Lemmas
import Mathlib.Data.Int.DivMod

namespace Thea

abbrev Network := ℕ

abbrev ValidatorSetId := ℕ

abbrev Bytes := List UInt8

-- The number of planck of one unit of the native currency.
def unitBalance : ℕ :=
  1000000000000

inductive PayloadType
  | scheduledRotateValidators
  | validatorsRotated
  | l1Deposit
deriving DecidableEq

structure Message where
  blockNo : ℕ
  nonce : ℕ
  network : Network
  payloadType : PayloadType
  data : Bytes
deriving DecidableEq

structure IncomingMessage (AccountId : Type) where
  message : Message
  relayer : AccountId
  stake : ℕ
  executeAt : ℕ
deriving DecidableEq

structure MisbehaviourReport (AccountId : Type) where
  reportedMsg : IncomingMessage AccountId
  fisherman : AccountId
  stake : ℕ
deriving DecidableEq

inductive NetworkType
  | parachain
  | evm
deriving DecidableEq

structure NetworkConfig where
  forkPeriod : ℕ := 20
  minStake : ℕ := 1000 * unitBalance
  fishermanStake : ℕ := 100 * unitBalance
  networkType : NetworkType := .parachain
deriving DecidableEq

instance : Inhabited NetworkConfig where
  default := {}

def NetworkConfig.new (forkPeriod minStake fishermanStake : ℕ) (isEvm : Bool) : NetworkConfig where
  forkPeriod := forkPeriod
  minStake := minStake
  fishermanStake := fishermanStake
  networkType := if isEvm then .evm else .parachain

-- The signatures are kept under the index of the authority in the validator set.
structure SignedMessage (Signature : Type) where
  validatorSetId : ValidatorSetId
  message : Message
  signatures : Std.TreeMap ℕ Signature

namespace SignedMessage

variable {Signature : Type}

def new (message : Message) (validatorSetId : ValidatorSetId) (authIndex : ℕ)
    (signature : Signature) : SignedMessage Signature where
  validatorSetId := validatorSetId
  message := message
  signatures := (∅ : Std.TreeMap ℕ Signature).insert authIndex signature

-- A signature on another message, or by another validator set, is dropped silently.
def addSignature (m : SignedMessage Signature) (message : Message)
    (validatorSetId : ValidatorSetId) (authIndex : ℕ) (signature : Signature) :
    SignedMessage Signature :=
  if m.message ≠ message then
    m
  else if m.validatorSetId ≠ validatorSetId then
    m
  else
    { m with signatures := m.signatures.insert authIndex signature }

def thresholdReached (m : SignedMessage Signature) (maxLen : ℕ) : Bool :=
  maxLen ≠ 0 && 2 * maxLen / 3 + 1 ≤ m.signatures.size

def containsSignature (m : SignedMessage Signature) (authIndex : ℕ) : Bool :=
  m.signatures.contains authIndex

end SignedMessage

-- The conversion of amounts between the decimals of an asset and those of the native currency.
-- How the arithmetic of the conversion can fail.
inductive Panic
  | subtractOverflow
  | negateOverflow
  | multiplyOverflow
  | divideByZero
deriving DecidableEq

-- Whether an overflow is a panic depends on how the code is compiled. Otherwise the result wraps around.
section Arithmetic

variable (overflowChecks : Bool)

def i8Result (overflow : Panic) (n : ℤ) : Except Panic ℤ :=
  if -128 ≤ n ∧ n < 128 then .ok n
  else if overflowChecks then .error overflow
  else .ok (n.bmod 256)

def i8Sub (a b : ℤ) : Except Panic ℤ :=
  i8Result overflowChecks .subtractOverflow (a - b)

def i8Neg (a : ℤ) : Except Panic ℤ :=
  i8Result overflowChecks .negateOverflow (-a)

def u128Pow (b e : ℕ) : Except Panic ℕ :=
  if b ^ e < 2 ^ 128 then .ok (b ^ e)
  else if overflowChecks then .error .multiplyOverflow
  else .ok (b ^ e % 2 ^ 128)

end Arithmetic

def saturatingDiv (a b : ℕ) : Except Panic ℕ :=
  if b = 0 then .error .divideByZero else .ok (a / b)

def u8AsI8 (n : Fin (2 ^ 8)) : ℤ :=
  (n : ℤ).bmod 256

def i8AsU32 (n : ℤ) : ℕ :=
  (n % 2 ^ 32).toNat

structure AssetMetadata where
  decimal : Fin (2 ^ 8)
deriving DecidableEq

namespace AssetMetadata

def new (decimal : Fin (2 ^ 8)) : Option AssetMetadata :=
  if decimal < 1 then none else some ⟨decimal⟩

variable (overflowChecks : Bool)

def convertToNativeDecimals (m : AssetMetadata) (amount : ℕ) : Except Panic ℕ := do
  let diff ← i8Sub overflowChecks 12 (u8AsI8 m.decimal)
  match compare diff 0 with
  | .lt =>
    let e ← i8Neg overflowChecks diff
    let unit ← u128Pow overflowChecks 10 (i8AsU32 e)
    saturatingDiv amount unit
  | .eq => return amount
  | .gt =>
    let unit ← u128Pow overflowChecks 10 (i8AsU32 diff)
    return Word.saturatingMul 128 amount unit

def convertFromNativeDecimals (m : AssetMetadata) (amount : ℕ) : Except Panic ℕ := do
  let diff ← i8Sub overflowChecks 12 (u8AsI8 m.decimal)
  match compare diff 0 with
  | .lt =>
    let e ← i8Neg overflowChecks diff
    let unit ← u128Pow overflowChecks 10 (i8AsU32 e)
    return Word.saturatingMul 128 amount unit
  | .eq => return amount
  | .gt =>
    let unit ← u128Pow overflowChecks 10 (i8AsU32 diff)
    saturatingDiv amount unit

end AssetMetadata

end Thea
