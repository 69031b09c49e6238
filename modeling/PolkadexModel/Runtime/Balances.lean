import PolkadexModel.PdexMigration.Pallet

-- The parts of the system pallet and of the balances pallet which the migrations of the runtime rest
-- on: the reference counters of an account, and the removal of a balance lock. Both pallets belong
-- to the framework that the runtime is built on.
namespace Runtime

open PdexMigration (LockIdentifier BalanceLock)

structure Constants where
  existentialDeposit : ℕ
  maxConsumers : ℕ

-- The flag says that the account counts its reserved balance as a consumer.
structure AccountData where
  free : ℕ := 0
  reserved : ℕ := 0
  frozen : ℕ := 0
  isNewLogic : Bool := true
deriving DecidableEq

-- What the balances pallet counts one consumer reference for.
def AccountData.Consumes (data : AccountData) : Prop :=
  data.reserved ≠ 0 ∨ data.frozen ≠ 0

instance (data : AccountData) : Decidable data.Consumes :=
  inferInstanceAs (Decidable (_ ∨ _))

structure AccountInfo where
  consumers : ℕ := 0
  providers : ℕ := 0
  sufficients : ℕ := 0
  data : AccountData := {}
deriving DecidableEq

inductive DispatchError
  | noProviders
  | tooManyConsumers
deriving DecidableEq

namespace AccountInfo

def incConsumersWithoutLimit (a : AccountInfo) : Except DispatchError AccountInfo :=
  if 0 < a.providers then .ok { a with consumers := a.consumers + 1 } else .error .noProviders

def incConsumers (c : Constants) (a : AccountInfo) : Except DispatchError AccountInfo :=
  if 0 < a.providers then
    if a.consumers < c.maxConsumers then .ok { a with consumers := a.consumers + 1 }
    else .error .tooManyConsumers
  else .error .noProviders

-- The data are written at the end of a mutation. An account which nothing provides for is removed.
def store (data : AccountData) (a : AccountInfo) : AccountInfo :=
  if 0 < a.providers ∨ 0 < a.sufficients then { a with data } else {}

-- An account of the old logic gets the reference for its reserved balance when it is first touched.
def ensureUpgraded (c : Constants) (a : AccountInfo) : AccountInfo :=
  if a.data.isNewLogic then a
  else
    let data := { a.data with isNewLogic := true }
    if a.data.reserved ≠ 0 ∧ a.data.frozen = 0 then
      if a.providers = 0 then
        store { data with free := max data.free c.existentialDeposit }
          { a with providers := 1, consumers := a.consumers + 1 }
      else store data { a with consumers := a.consumers + 1 }
    else store data a

end AccountInfo

-- The messages that the two pallets log as errors.
inductive LogicError
  | consumerUnderflow
  | consumerBump
deriving DecidableEq

-- What is stored under an account, and the errors that have been logged about it.
structure Entry where
  account : AccountInfo := {}
  locks : List BalanceLock := []
  freezes : List ℕ := []
  log : List LogicError := []
deriving DecidableEq

def largest (amounts : List ℕ) : ℕ :=
  amounts.foldl max 0

namespace Entry

abbrev data (e : Entry) : AccountData :=
  e.account.data

-- The amount which has to be frozen.
def required (e : Entry) : ℕ :=
  largest (e.locks.map (·.amount) ++ e.freezes)

def decConsumers (e : Entry) : Entry :=
  if 0 < e.account.consumers then
    { e with account := { e.account with consumers := e.account.consumers - 1 } }
  else { e with log := e.log ++ [.consumerUnderflow] }

-- A balance below the existential deposit does not keep the data alive.
def store (c : Constants) (data : AccountData) (e : Entry) : Entry :=
  let kept := if data.free < c.existentialDeposit ∧ data.reserved = 0 then {} else data
  { e with account := e.account.store kept }

-- The mutation of an account that only changes its frozen amount. Such a mutation does not change
-- whether the balance provides for the account. If no consumer can be added, the data are not written.
def mutateFrozen (c : Constants) (frozen : ℕ) (e : Entry) : Entry :=
  let e := { e with account := e.account.ensureUpgraded c }
  let isNew := e.data = {}
  let data := { e.data with frozen }
  let didConsume := ¬isNew ∧ e.data.Consumes
  if data.Consumes then
    match if didConsume then .ok e.account else e.account.incConsumers c with
    | .error _ => e
    | .ok account =>
      if account.consumers = 0 then
        let e := { e with log := e.log ++ [.consumerBump] }
        match account.incConsumers c with
        | .error _    => e
        | .ok account => { e with account }.store c data
      else { e with account }.store c data
  else if didConsume then e.decConsumers.store c data
  else e.store c data

-- The locks are written even if the account could not be changed.
def updateLocks (c : Constants) (locks : List BalanceLock) (e : Entry) : Entry :=
  { e.mutateFrozen c { e with locks }.required with locks }

def removeLock (c : Constants) (id : LockIdentifier) (e : Entry) : Entry :=
  e.updateLocks c (e.locks.filter (·.id ≠ id))

-- The removal does not change an account of the new logic if there would have to be a new reference and
-- there cannot be one.
def Refuses (c : Constants) (id : LockIdentifier) (e : Entry) : Prop :=
  let data := { e.data with frozen := (e.removeLock c id).required }
  e.data.isNewLogic = true ∧ data.Consumes ∧ (¬e.data.Consumes ∨ e.account.consumers = 0) ∧
    (e.account.providers = 0 ∨ c.maxConsumers ≤ e.account.consumers)

instance {c : Constants} {id : LockIdentifier} {e : Entry} : Decidable (e.Refuses c id) :=
  inferInstanceAs (Decidable (_ ∧ _))

end Entry

end Runtime
