import PolkadexModel.Lib.Run
import PolkadexModel.Lib.Bounded

open Function

namespace PdexMigration

abbrev LockIdentifier := String

def migrationLock : LockIdentifier :=
  "pdexlock"

structure BalanceLock where
  id : LockIdentifier
  amount : ℕ
deriving DecidableEq

-- The part of the balances pallet that this pallet calls. `B` is the storage of that pallet.
class Balances (AccountId : outParam Type) (B : Type) where
  locks           : B → AccountId → List BalanceLock
  depositCreating : B → AccountId → ℕ → B
  setLock         : B → LockIdentifier → AccountId → ℕ → B
  removeLock      : B → LockIdentifier → AccountId → B
  burnFrom        : B → AccountId → ℕ → Option B

structure Config where
  maxRelayers : ℕ
  lockPeriod : ℕ

-- The approvals are a `u16` counter. They are counted separately from the list of approvers.
structure BurnTxDetails (AccountId : Type) (cfg : Config) where
  approvals : ℕ := 0
  approvers : BoundedVec AccountId cfg.maxRelayers := default

instance {AccountId cfg} : Inhabited (BurnTxDetails AccountId cfg) where
  default := {}

inductive Event (AccountId Hash : Type)
  | relayerStatusUpdated (relayer : AccountId) (status : Bool)
  | nativePDEXMintedAndLocked (relayer beneficiary : AccountId) (amount : ℕ)
  | revertedMintedTokens (beneficiary : AccountId)
  | tokenBurnDetected (ethTx : Hash) (relayer : AccountId)
deriving DecidableEq

inductive Error
  | notOperational
  | unknownRelayer
  | invalidMintAmount
  | unknownBeneficiary
  | liquidityRestrictions
  | invalidTxHash
  | alreadyProcessedEthBurnTx
  | relayerLimitReached
  | burnFailed
deriving DecidableEq

structure State (AccountId Hash B : Type) (cfg : Config) where
  relayers : AccountId → Bool
  operational : Bool
  mintableTokens : ℕ
  lockedTokenHolders : AccountId → Option ℕ
  ethTxns : Hash → BurnTxDetails AccountId cfg
  currentBlockNumber : ℕ
  balances : B
  events : List (Event AccountId Hash)

variable {AccountId Hash B : Type} {cfg : Config}

namespace State

-- The genesis build only sets the operational flag and the number of mintable tokens.
def genesis (operational : Bool) (maxTokens : ℕ) (balances : B) : State AccountId Hash B cfg where
  relayers _ := false
  operational := operational
  mintableTokens := maxTokens
  lockedTokenHolders _ := none
  ethTxns _ := default
  currentBlockNumber := 0
  balances := balances
  events := []

def depositEvent (s : State AccountId Hash B cfg) (e : Event AccountId Hash) :
    State AccountId Hash B cfg :=
  { s with events := s.events ++ [e] }

variable [DecidableEq AccountId] [DecidableEq Hash] [Balances AccountId B]

def setMigrationOperationalStatus (s : State AccountId Hash B cfg) (status : Bool) :
    State AccountId Hash B cfg :=
  { s with operational := status }

def setRelayerStatus (s : State AccountId Hash B cfg) (relayer : AccountId) (status : Bool) :
    State AccountId Hash B cfg :=
  { s with relayers := update s.relayers relayer status }
    |>.depositEvent (.relayerStatusUpdated relayer status)

-- The last lock with the migration identifier decides.
def previousLockedBalance (s : State AccountId Hash B cfg) (who : AccountId) : ℕ :=
  (Balances.locks s.balances who).foldl
    (fun amount lock => if lock.id = migrationLock then lock.amount else amount) 0

def mintAndLock (s : State AccountId Hash B cfg) (beneficiary : AccountId) (amount : ℕ) :
    State AccountId Hash B cfg :=
  let s := { s with balances := Balances.depositCreating s.balances beneficiary amount }
  let locked := Word.saturatingAdd 128 amount (s.previousLockedBalance beneficiary)
  { s with
    balances := Balances.setLock s.balances migrationLock beneficiary locked
    lockedTokenHolders :=
      update s.lockedTokenHolders beneficiary (some s.currentBlockNumber)
    mintableTokens := s.mintableTokens - amount }

def processMigration (s : State AccountId Hash B cfg) (relayer beneficiary : AccountId)
    (amount : ℕ) (ethHash : Hash) (burnDetails : BurnTxDetails AccountId cfg) :
    Except Error (State AccountId Hash B cfg) :=
  if s.relayers relayer then
    if amount ≤ s.mintableTokens then
      let approvals := Word.wrappingAdd 16 burnDetails.approvals 1
      match burnDetails.approvers.tryPush relayer with
      | none => .error .relayerLimitReached
      | some approvers =>
        let ethTxns := update s.ethTxns ethHash ⟨approvals, approvers⟩
        -- The beneficiary and the amount are those of the third approval.
        if approvals = 3 then
          .ok <| { s.mintAndLock beneficiary amount with ethTxns := ethTxns }
            |>.depositEvent (.nativePDEXMintedAndLocked relayer beneficiary amount)
        else
          .ok <| { s with ethTxns := ethTxns } |>.depositEvent (.tokenBurnDetected ethHash relayer)
    else
      .error .invalidMintAmount
  else
    .error .unknownRelayer

def mint [Inhabited Hash] (s : State AccountId Hash B cfg) (relayer beneficiary : AccountId)
    (amount : ℕ) (ethTx : Hash) : Except Error (State AccountId Hash B cfg) :=
  if ethTx = default then
    .error .invalidTxHash
  else if s.operational then
    if relayer ∈ (s.ethTxns ethTx).approvers.toList then
      .error .alreadyProcessedEthBurnTx
    else
      s.processMigration relayer beneficiary amount ethTx (s.ethTxns ethTx)
  else
    .error .notOperational

def processUnlock (s : State AccountId Hash B cfg) (beneficiary : AccountId) :
    Except Error (State AccountId Hash B cfg) :=
  match s.lockedTokenHolders beneficiary with
  | none => .error .unknownBeneficiary
  | some lockedBlock =>
    if Word.wrappingAdd 32 lockedBlock cfg.lockPeriod ≤ s.currentBlockNumber then
      .ok { s with
        lockedTokenHolders := update s.lockedTokenHolders beneficiary none
        balances := Balances.removeLock s.balances migrationLock beneficiary }
    else
      .error .liquidityRestrictions

def unlock (s : State AccountId Hash B cfg) (beneficiary : AccountId) :
    Except Error (State AccountId Hash B cfg) :=
  if s.operational then s.processUnlock beneficiary else .error .notOperational

-- The first lock with the migration identifier decides.
def removeFradulentTokens (s : State AccountId Hash B cfg) (beneficiary : AccountId) :
    Except Error (State AccountId Hash B cfg) :=
  let lock? := (Balances.locks s.balances beneficiary).find? (·.id = migrationLock)
  let amountToBurn := lock?.elim 0 BalanceLock.amount
  match Balances.burnFrom (Balances.removeLock s.balances migrationLock beneficiary) beneficiary
    amountToBurn with
  | none => .error .burnFailed
  | some balances =>
    .ok <| { s with
      lockedTokenHolders := update s.lockedTokenHolders beneficiary none
      balances := balances
      mintableTokens := Word.wrappingAdd 128 s.mintableTokens amountToBurn }
      |>.depositEvent (.revertedMintedTokens beneficiary)

end State

inductive Call (AccountId Hash : Type)
  | setMigrationOperationalStatus (status : Bool)
  | setRelayerStatus (relayer : AccountId) (status : Bool)
  | mint (relayer beneficiary : AccountId) (amount : ℕ) (ethTx : Hash)
  | unlock (beneficiary : AccountId)
  | removeMintedTokens (beneficiary : AccountId)
  | nextBlock
deriving DecidableEq

variable [DecidableEq AccountId] [DecidableEq Hash] [Inhabited Hash] [Balances AccountId B]

def dispatch (s : State AccountId Hash B cfg) :
    Call AccountId Hash → Except Error (State AccountId Hash B cfg)
  | .setMigrationOperationalStatus status       => .ok (s.setMigrationOperationalStatus status)
  | .setRelayerStatus relayer status            => .ok (s.setRelayerStatus relayer status)
  | .mint relayer beneficiary amount ethTx      => s.mint relayer beneficiary amount ethTx
  | .unlock beneficiary                         => s.unlock beneficiary
  | .removeMintedTokens beneficiary             => s.removeFradulentTokens beneficiary
  | .nextBlock => .ok { s with currentBlockNumber := s.currentBlockNumber + 1 }

def step (s : State AccountId Hash B cfg) (c : Call AccountId Hash) :
    Option (State AccountId Hash B cfg) :=
  (dispatch s c).toOption

end PdexMigration
