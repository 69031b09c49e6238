import PolkadexModel.Lib.Store
import PolkadexModel.Ocex.Types

namespace Ocex

-- The contents of the off-chain trie without the state info, which has a key of its own. The keys are
-- the accounts, and the fixed key of the liquidity mining configuration.
structure OffchainState (AccountId : Type) where
  balances : Store AccountId (AssetId → Option Decimal)
  lmpConfig : Option LMPConfig

-- The accounts without a key, which belong to the pallet.
class PalletAccounts (AccountId : Type) where
  palletAccount : AccountId
  potAccount : AccountId

variable {AccountId Signature : Type}

namespace OffchainState

def empty : OffchainState AccountId where
  balances := .empty
  lmpConfig := none

-- The stored balance, if there is one.
def entry (s : OffchainState AccountId) (account : AccountId) (asset : AssetId) : Option Decimal :=
  (s.balances.get account).bind (· asset)

def getBalance (s : OffchainState AccountId) (account : AccountId) (asset : AssetId) : Decimal :=
  (s.entry account asset).getD 0

variable [DecidableEq AccountId] [Decimal.Arith]

-- Writes one balance back into the map of its account.
def setEntry (s : OffchainState AccountId) (account : AccountId) (asset : AssetId)
    (balance : Decimal) : OffchainState AccountId :=
  let balances := (s.balances.get account).getD (fun _ => none)
  { s with balances := s.balances.insert account (Function.update balances asset (some balance)) }

-- A new balance is stored as it is, while an old one is rounded off after the addition.
def addBalance (s : OffchainState AccountId) (account : AccountId) (asset : AssetId)
    (balance : Decimal) : OffchainState AccountId :=
  match s.entry account asset with
  | none       => s.setEntry account asset balance
  | some total => s.setEntry account asset (Order.roundingOff (total.saturatingAdd balance))

-- What is taken from an account. A withdrawal takes what is there if that is not enough, and
-- computes the difference only to report it.
def deductible (accountBalance balance : Decimal) (isWithdrawal : Bool) : Except Fault Decimal :=
  if accountBalance < balance then
    if isWithdrawal then
      match Decimal.Arith.checkedSub balance accountBalance with
      | none   => .error (.panic "Subtraction overflowed")
      | some _ => .ok accountBalance
    else
      .error (.error "NotEnoughBalance")
  else
    .ok balance

def subBalance (s : OffchainState AccountId) (account : AccountId) (asset : AssetId)
    (balance : Decimal) (isWithdrawal : Bool) : Except Fault (OffchainState AccountId × Decimal) :=
  match s.balances.get account with
  | none => .error (.error "Account not found in trie")
  | some balances =>
    match balances asset with
    | none => .error (.error "NotEnoughBalance: zero balance")
    | some accountBalance => do
      let balance ← deductible accountBalance balance isWithdrawal
      return (s.setEntry account asset (Order.roundingOff (accountBalance.saturatingSub balance)),
        balance)

variable [PalletAccounts AccountId]

-- One party of a trade gets its credit without the fees, which go to the pot, and pays its debit.
def settle (s : OffchainState AccountId) (t : Trade AccountId Signature) (maker : Bool)
    (fraction : Decimal) : Except Fault (OffchainState AccountId) := do
  let (creditAsset, credit) ← t.credit maker
  let fees := credit.saturatingMul fraction
  let s := s.addBalance creditAsset.main creditAsset.asset (credit.saturatingSub fees)
  let s := s.addBalance PalletAccounts.potAccount creditAsset.asset fees
  let (debitAsset, debit) ← t.debit maker
  let (s, _) ← s.subBalance debitAsset.main debitAsset.asset debit false
  return s

def processTrade [Verify AccountId Signature] (s : OffchainState AccountId)
    (t : Trade AccountId Signature) (config : TradingPairConfig) (makerFees takerFees : FeeConfig) :
    Except Fault (OffchainState AccountId) := do
  if ← t.verify config then
    let s ← s.settle t true makerFees.makerFraction
    s.settle t false takerFees.takerFraction
  else
    .error (.error "InvalidTrade")

end OffchainState

-- Accounts and signatures for examples. A signature names its signer and what was signed.
namespace Mock

abbrev Account := Fin 8

instance neZero_eight : NeZero 8 :=
  ⟨by decide⟩

def two : Decimal :=
  .ofInt 2 (by decide)

abbrev Sig := Account × Signed Account

instance : PalletAccounts Account where
  palletAccount := 0
  potAccount := 1

instance : Verify Account Sig where
  verify signature message account := signature = (account, message)

end Mock

end Ocex
