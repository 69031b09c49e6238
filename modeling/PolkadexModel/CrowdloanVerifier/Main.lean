import PolkadexModel.Ocex.Types

-- The tool that compares a sheet of contributions with the table of the rewards pallet.
namespace CrowdloanVerifier

open Ocex (FromText unitDecimal)

-- The fields of a line of the sheet.
abbrev Record := List String

-- What is still to be read of the sheet. A line may be malformed.
abbrev Reader := List (Option Record)

class AccountText (AccountId : Type) where
  parse : String → Option AccountId

-- The accounts of the pallet, with the total, the part for the cliff and the part for each block.
abbrev Table (AccountId : Type) := List (AccountId × ℕ × ℕ × ℕ)

inductive Panic
  | record
  | column (n : ℕ)
  | account (text : String)
  | decimal (text : String)
  | amount
  | numberOfUsers
deriving DecidableEq

-- What is printed at the end.
inductive Outcome (AccountId : Type)
  | allGood
  | errorInRewardsInfo (user : AccountId)
  | userNotFound (user : AccountId)
deriving DecidableEq

def unwrap {α : Type} (p : Panic) (a : Option α) : Except Panic α :=
  a.elim (.error p) .ok

variable {AccountId : Type} [AccountText AccountId] [FromText]

def column (record : Record) (n : ℕ) : Except Panic String :=
  unwrap (.column n) record[n]?

def userOf (record : Record) : Except Panic AccountId := do
  let text ← column record 0
  unwrap (.account text) (AccountText.parse text)

def decimalOf (record : Record) (n : ℕ) : Except Panic Decimal := do
  let text ← column record n
  unwrap (.decimal text) (FromText.parse text)

section Arithmetic

variable [Decimal.Arith]

def toPlanck (amount : Decimal) : Except Panic ℕ :=
  unwrap .amount (amount.saturatingMul unitDecimal).toNat?

def fromPlanck (amount : ℕ) : Except Panic Decimal := do
  let amount ← unwrap .amount (Decimal.ofNat? amount)
  unwrap .amount (Decimal.Arith.checkedDiv amount unitDecimal)

-- A line as the first pass reads it. The second column has the contribution.
structure Row (AccountId : Type) where
  user : AccountId
  total : Decimal
  cliff : Decimal
  claimPerBlock : Decimal
  planck : ℕ × ℕ × ℕ
deriving DecidableEq

def readRow (record : Record) : Except Panic (Row AccountId) := do
  let user ← userOf record
  let total ← decimalOf record 2
  let cliff ← decimalOf record 3
  let claimPerBlock ← decimalOf record 4
  let t ← toPlanck total
  let i ← toPlanck cliff
  let f ← toPlanck claimPerBlock
  return { user, total, cliff, claimPerBlock, planck := (t, i, f) }

variable [Ord AccountId]

abbrev Rewards (AccountId : Type) [Ord AccountId] := Std.TreeMap AccountId (ℕ × ℕ × ℕ)

def Rewards.add (map : Rewards AccountId) (row : Row AccountId) : Rewards AccountId :=
  map.insert row.user <|
    match map[row.user]? with
    | none           => row.planck
    | some (t, i, f) => (
        Word.saturatingAdd 128 t row.planck.1,
        Word.saturatingAdd 128 i row.planck.2.1,
        Word.saturatingAdd 128 f row.planck.2.2)

-- The first pass reads the sheet to its end.
def aggregate : Reader → Rewards AccountId → Except Panic (Rewards AccountId × Reader)
  | [], map                    => .ok (map, [])
  | none :: _, _               => .error .record
  | some record :: reader, map => do
    let row ← readRow record
    aggregate reader (map.add row)

variable [DecidableEq AccountId]

-- The second pass takes other columns, and compares each line by itself.
def checkRecord (table : Table AccountId) (record : Record) :
    Except Panic (Option (Outcome AccountId)) := do
  let user ← userOf record
  let total ← decimalOf record 1
  let cliff ← decimalOf record 2
  let claimPerBlock ← decimalOf record 3
  let _ ← decimalOf record 4
  match table.find? (·.1 = user) with
  | none => return some (.userNotFound user)
  | some (_, t, i, f) =>
    let totalList ← fromPlanck t
    let cliffList ← fromPlanck i
    let claimPerBlockList ← fromPlanck f
    if total ≈ totalList ∧ cliff ≈ cliffList ∧ claimPerBlock ≈ claimPerBlockList then return none
    else return some (.errorInRewardsInfo user)

def checkRecords (table : Table AccountId) : Reader → Except Panic (Outcome AccountId)
  | []                    => .ok .allGood
  | none :: _             => .error .record
  | some record :: reader => do
    match ← checkRecord table record with
    | some outcome => return outcome
    | none         => checkRecords table reader

def verify (table : Table AccountId) (reader : Reader) : Except Panic (Outcome AccountId) := do
  let (map, rest) ← aggregate reader (∅ : Rewards AccountId)
  if table.length = map.size then checkRecords table rest else .error .numberOfUsers

end Arithmetic

end CrowdloanVerifier
