import PolkadexModel.Lib.Run
import PolkadexModel.Thea.Types
import Mathlib.Data.Finset.Dedup

open Function

namespace Thea

abbrev DispatchError := String

-- The native currency. `W` is the storage of the other pallets: a call that fails does not change it.
class Currency (AccountId W : Type) where
  reducibleBalance : W → AccountId → ℕ
  hold             : W → AccountId → ℕ → Except DispatchError W
  release          : W → AccountId → ℕ → Except DispatchError W
  transfer         : W → AccountId → AccountId → ℕ → Except DispatchError W
  burnFrom         : W → AccountId → ℕ → Except DispatchError W

-- The pallet which executes the deposits of an incoming message.
class Executor (W : Type) where
  executeDeposits : W → Network → Bytes → Except DispatchError W

-- The keys of the authorities. A signature is made on the hash of an encoded message.
class Authority (TheaId Signature : Type) where
  verify : Signature → Message → TheaId → Bool

class Config (TheaId : Type) where
  maxAuthorities     : ℕ
  encodeValidatorSet : List TheaId → ValidatorSetId → Bytes

inductive Event (AccountId : Type)
  | theaPayloadProcessed (network : Network) (nonce : ℕ)
  | errorWhileReleasingLock (who : AccountId) (error : DispatchError)
  | misbehaviourReported (fisherman : AccountId) (network : Network) (nonce : ℕ)
  | theaSignatureUpdated (network : Network) (nonce total : ℕ)
  | theaSignatureFinalized (network : Network) (nonce : ℕ)
  | unableToGenerateValidatorSet (network : Network)
  | depositExecutionFailed (network : Network) (nonce : ℕ) (error : DispatchError)
deriving DecidableEq

inductive Error
  | notEnoughStake
  | messageNotFound
  | nonceError
  | invalidValidatorSetId
  | emptyValidatorSet
  | outgoingMessageSlotOccupied
  | outgoingNonceBelowFinalized
  | forkPeriodTooShort
  | messageAlreadyExecuted
  | dispatch (error : DispatchError)
  -- An unsigned transaction which is refused before it is dispatched.
  | invalidTransaction (code : ℕ)
deriving DecidableEq

-- The double maps of the storage are keyed by a network and a nonce.
structure State (AccountId TheaId Signature W : Type) where
  authorities : ValidatorSetId → List TheaId
  validatorSetId : ValidatorSetId
  nextAuthorities : List TheaId
  outgoingMessages : Network × ℕ → Option Message
  signedOutgoingMessages : Network × ℕ → Option (SignedMessage Signature)
  incomingMessagesQueue : Network × ℕ → Option (IncomingMessage AccountId)
  incomingMessages : Network × ℕ → Option Message
  incomingNonce : Network → ℕ
  outgoingNonce : Network → ℕ
  signedOutgoingNonce : Network → ℕ
  activeNetworks : Std.TreeSet Network
  networkConfig : Network → NetworkConfig
  misbehaviourReports : Network × ℕ → Option (MisbehaviourReport AccountId)
  currentBlockNumber : ℕ
  world : W
  events : List (Event AccountId)

variable {AccountId TheaId Signature W : Type}

namespace State

-- The state after `initialize_authorities` on an empty storage.
def genesis (authorities : List TheaId) (world : W) : State AccountId TheaId Signature W where
  authorities id := if id = 0 then authorities else []
  validatorSetId := 0
  nextAuthorities := []
  outgoingMessages _ := none
  signedOutgoingMessages _ := none
  incomingMessagesQueue _ := none
  incomingMessages _ := none
  incomingNonce _ := 0
  outgoingNonce _ := 0
  signedOutgoingNonce _ := 0
  activeNetworks := ∅
  networkConfig _ := default
  misbehaviourReports _ := none
  currentBlockNumber := 0
  world := world
  events := []

def depositEvent (s : State AccountId TheaId Signature W) (e : Event AccountId) :
    State AccountId TheaId Signature W :=
  { s with events := s.events ++ [e] }

def activeAuthorities (s : State AccountId TheaId Signature W) : List TheaId :=
  s.authorities s.validatorSetId

section Incoming

variable [Currency AccountId W] [Executor W]

-- The stake of the relayer is given back, however the execution of the deposits ended.
def releaseStake (s : State AccountId TheaId Signature W) (who : AccountId) (stake : ℕ) :
    State AccountId TheaId Signature W :=
  match Currency.release s.world who stake with
  | .ok world   => { s with world := world }
  | .error e => s.depositEvent (.errorWhileReleasingLock who e)

def executeMessage (s : State AccountId TheaId Signature W) (nextNonce : ℕ)
    (msg : IncomingMessage AccountId) : State AccountId TheaId Signature W :=
  let s' := { s with
    incomingNonce := update s.incomingNonce msg.message.network nextNonce }
  match Executor.executeDeposits s.world msg.message.network msg.message.data with
  | .ok world =>
    let s' := { s' with
      world := world
      incomingMessages := update s'.incomingMessages
        (msg.message.network, msg.message.nonce) (some msg.message) }
    s'.depositEvent (.theaPayloadProcessed msg.message.network msg.message.nonce)
      |>.releaseStake msg.relayer msg.stake
  | .error e =>
    s'.depositEvent (.depositExecutionFailed msg.message.network msg.message.nonce e)
      |>.releaseStake msg.relayer msg.stake

def nextIncomingNonce (s : State AccountId TheaId Signature W) (network : Network) : ℕ :=
  Word.saturatingAdd 64 (s.incomingNonce network) 1

-- The message is taken out of the queue before its block is compared with the current one.
def onInitializeNetwork (blk : ℕ) (s : State AccountId TheaId Signature W) (network : Network) :
    State AccountId TheaId Signature W :=
  match s.incomingMessagesQueue (network, s.nextIncomingNonce network) with
  | none => s
  | some msg =>
    let taken := { s with
      incomingMessagesQueue :=
        update s.incomingMessagesQueue (network, s.nextIncomingNonce network) none }
    if msg.executeAt ≤ Word.saturatedInto 32 blk
    then taken.executeMessage (s.nextIncomingNonce network) msg
    else taken

def onInitialize (s : State AccountId TheaId Signature W) (blk : ℕ) :
    State AccountId TheaId Signature W :=
  s.activeNetworks.toList.foldl (onInitializeNetwork blk) s

def executeAt (s : State AccountId TheaId Signature W) (config : NetworkConfig) : ℕ :=
  Word.saturatingAdd 32 (Word.saturatedInto 32 s.currentBlockNumber) config.forkPeriod

def submitIncomingMessage (s : State AccountId TheaId Signature W) (signer : AccountId)
    (payload : Message) (stake : ℕ) : Except Error (State AccountId TheaId Signature W) :=
  let config := s.networkConfig payload.network
  let key := (payload.network, payload.nonce)
  let enqueue (world : W) : State AccountId TheaId Signature W := { s with
    world := world
    incomingMessagesQueue :=
      update s.incomingMessagesQueue key (some ⟨payload, signer, stake, s.executeAt config⟩) }
  if stake < config.minStake then
    .error .notEnoughStake
  else if payload.nonce ≤ s.incomingNonce payload.network then
    .error .nonceError
  else
    match s.incomingMessagesQueue key with
    | none =>
      match Currency.hold s.world signer stake with
      | .error e => .error (.dispatch e)
      | .ok world  => .ok (enqueue world)
    | some existing =>
      if existing.stake < stake then
        match Currency.release s.world existing.relayer existing.stake with
        | .error e => .error (.dispatch e)
        | .ok world  =>
          match Currency.hold world signer stake with
          | .error e => .error (.dispatch e)
          | .ok world  => .ok (enqueue world)
      else
        .ok s

def reportMisbehaviour (s : State AccountId TheaId Signature W) (fisherman : AccountId)
    (network : Network) (nonce : ℕ) : Except Error (State AccountId TheaId Signature W) :=
  let stake := (s.networkConfig network).fishermanStake
  if Currency.reducibleBalance s.world fisherman < stake then
    .error .notEnoughStake
  else
    match Currency.hold s.world fisherman stake with
    | .error e => .error (.dispatch e)
    | .ok world  =>
      match s.incomingMessagesQueue (network, nonce) with
      | none =>
        if (s.incomingMessages (network, nonce)).isSome
        then .error .messageAlreadyExecuted
        else .error .messageNotFound
      | some reportedMsg =>
        .ok <| { s with
          world := world
          incomingMessagesQueue := update s.incomingMessagesQueue (network, nonce) none
          misbehaviourReports :=
            update s.misbehaviourReports (network, nonce)
              (some ⟨reportedMsg, fisherman, stake⟩) }
          |>.depositEvent (.misbehaviourReported fisherman network nonce)

-- An accepted report pays the stake of the relayer to the fisherman.
def slashRelayer (s : State AccountId TheaId Signature W) (report : MisbehaviourReport AccountId) :
    Except Error (State AccountId TheaId Signature W) :=
  match Currency.release s.world report.reportedMsg.relayer report.reportedMsg.stake with
  | .error e => .error (.dispatch e)
  | .ok world  =>
    match Currency.transfer world report.reportedMsg.relayer report.fisherman report.reportedMsg.stake with
    | .error e => .error (.dispatch e)
    | .ok world  =>
      match Currency.release world report.fisherman report.stake with
      | .error e => .error (.dispatch e)
      | .ok world  => .ok { s with world := world }

-- A rejected report puts the message back, whatever is in its place in the queue by then.
def restoreMessage (s : State AccountId TheaId Signature W)
    (report : MisbehaviourReport AccountId) : Except Error (State AccountId TheaId Signature W) :=
  let message := report.reportedMsg.message
  match Currency.burnFrom s.world report.fisherman report.stake with
  | .error e => .error (.dispatch e)
  | .ok world  => .ok { s with
      world := world
      incomingMessagesQueue :=
        update s.incomingMessagesQueue (message.network, message.nonce)
          (some report.reportedMsg) }

def handleMisbehaviour (s : State AccountId TheaId Signature W) (network : Network) (nonce : ℕ)
    (acceptance : Bool) : Except Error (State AccountId TheaId Signature W) :=
  match s.misbehaviourReports (network, nonce) with
  | none => .ok s
  | some report =>
    let taken := { s with
      misbehaviourReports := update s.misbehaviourReports (network, nonce) none }
    if acceptance then taken.slashRelayer report else taken.restoreMessage report

end Incoming

section Outgoing

-- The next message of a network. The nonce in the storage is not changed.
def generatePayload (s : State AccountId TheaId Signature W) (payloadType : PayloadType)
    (network : Network) (data : Bytes) : Message where
  blockNo := s.currentBlockNumber
  nonce := Word.saturatingAdd 64 (s.outgoingNonce network) 1
  network := network
  payloadType := payloadType
  data := data

def insertOutgoing (s : State AccountId TheaId Signature W) (message : Message) :
    State AccountId TheaId Signature W := { s with
  outgoingNonce := update s.outgoingNonce message.network message.nonce
  outgoingMessages :=
    update s.outgoingMessages (message.network, message.nonce) (some message) }

def executeWithdrawals (s : State AccountId TheaId Signature W) (network : Network)
    (data : Bytes) : Except Error (State AccountId TheaId Signature W) :=
  let payload := s.generatePayload .l1Deposit network data
  if (s.outgoingMessages (network, payload.nonce)).isSome
  then .error .outgoingMessageSlotOccupied
  else .ok (s.insertOutgoing payload)

def updateIncomingNonce (s : State AccountId TheaId Signature W) (nonce : ℕ) (network : Network) :
    State AccountId TheaId Signature W :=
  { s with incomingNonce := update s.incomingNonce network nonce }

def updateOutgoingNonce (s : State AccountId TheaId Signature W) (nonce : ℕ) (network : Network) :
    Except Error (State AccountId TheaId Signature W) :=
  if nonce < s.outgoingNonce network
  then .error .outgoingNonceBelowFinalized
  else .ok { s with outgoingNonce := update s.outgoingNonce network nonce }

def addTheaNetwork (s : State AccountId TheaId Signature W) (network : Network) (isEvm : Bool)
    (forkPeriod minStake fishermanStake : ℕ) : Except Error (State AccountId TheaId Signature W) :=
  if forkPeriod < 2 then
    .error .forkPeriodTooShort
  else
    .ok { s with
      networkConfig := update s.networkConfig network
        (.new forkPeriod minStake fishermanStake isEvm)
      activeNetworks := s.activeNetworks.insert network }

def removeTheaNetwork (s : State AccountId TheaId Signature W) (network : Network) :
    State AccountId TheaId Signature W :=
  { s with activeNetworks := s.activeNetworks.erase network }

-- The body of the loop over the submitted signatures.
def submitSignature (s : State AccountId TheaId Signature W) (authIndex : ℕ) (id : ValidatorSetId)
    (network : Network) (nonce : ℕ) (signature : Signature) :
    Except Error (State AccountId TheaId Signature W) :=
  match s.outgoingMessages (network, nonce) with
  | none => .error .messageNotFound
  | some message =>
    let store (m : SignedMessage Signature) := { s with
      signedOutgoingMessages :=
        update s.signedOutgoingMessages (network, nonce) (some m) }
    match s.signedOutgoingMessages (network, nonce) with
    | none => .ok <| store (.new message id authIndex signature)
    | some m =>
      let m := m.addSignature message id authIndex signature
      let updated := Event.theaSignatureUpdated network nonce (m.signatures.size % 2 ^ 16)
      if m.thresholdReached s.activeAuthorities.length then
        .ok <| { store m with
          signedOutgoingNonce := update s.signedOutgoingNonce network nonce }
          |>.depositEvent (.theaSignatureFinalized network nonce) |>.depositEvent updated
      else
        .ok <| (store m).depositEvent updated

def submitSignatures (authIndex : ℕ) (id : ValidatorSetId) :
    State AccountId TheaId Signature W → List (Network × ℕ × Signature) →
    Except Error (State AccountId TheaId Signature W)
  | s, [] => .ok s
  | s, (network, nonce, signature) :: signatures =>
    match s.submitSignature authIndex id network nonce signature with
    | .error e => .error e
    | .ok s    => submitSignatures authIndex id s signatures

def submitSignedOutgoingMessages (s : State AccountId TheaId Signature W) (authIndex : ℕ)
    (id : ValidatorSetId) (signatures : List (Network × ℕ × Signature)) :
    Except Error (State AccountId TheaId Signature W) :=
  if id ≠ s.validatorSetId then
    .error .invalidValidatorSetId
  else if s.activeAuthorities = [] then
    .error .emptyValidatorSet
  else
    submitSignatures authIndex id s signatures

-- The only nonce of a network for which signatures are accepted.
def nextSignedNonce (s : State AccountId TheaId Signature W) (network : Network) : ℕ :=
  Word.saturatingAdd 64 (s.signedOutgoingNonce network) 1

variable [Authority TheaId Signature]

-- The check of one signature of an unsigned transaction, which ends with a code if it fails.
def validateSignature (s : State AccountId TheaId Signature W) (authIndex : ℕ) (signer : TheaId)
    (network : Network) (nonce : ℕ) (signature : Signature) : Except ℕ Unit :=
  if nonce ≠ s.nextSignedNonce network then
    .error 2
  else if (s.signedOutgoingMessages (network, nonce)).any (·.containsSignature authIndex) then
    .error 4
  else
    match s.outgoingMessages (network, nonce) with
    | none => .error 3
    | some message => if Authority.verify signature message signer then .ok () else .error 6

def validateSignedOutgoingMessage (s : State AccountId TheaId Signature W) (authIndex : ℕ)
    (id : ValidatorSetId) (signatures : List (Network × ℕ × Signature)) : Except ℕ Unit :=
  if id ≠ s.validatorSetId then
    .error 7
  else if s.activeAuthorities = [] then
    .error 8
  else
    match s.activeAuthorities[authIndex]? with
    | none => .error 1
    | some signer => signatures.forM fun (network, nonce, signature) =>
        s.validateSignature authIndex signer network nonce signature

end Outgoing

section Rotation

variable [Config TheaId]

-- The payload of a rotation message. The keys of an Ethereum network are not parsed, so that their
-- list is always empty, and there is no validator set without validators.
def rotationPayload (s : State AccountId TheaId Signature W) (queued : List TheaId)
    (newId : ValidatorSetId) (network : Network) : Option Bytes :=
  match (s.networkConfig network).networkType with
  | .evm       => none
  | .parachain => if queued = [] then none else some (Config.encodeValidatorSet queued newId)

def scheduleRotation (queued : List TheaId) (newId : ValidatorSetId)
    (s : State AccountId TheaId Signature W) (network : Network) :
    State AccountId TheaId Signature W :=
  match s.rotationPayload queued newId network with
  | none         => s.depositEvent (.unableToGenerateValidatorSet network)
  | some payload => s.insertOutgoing (s.generatePayload .scheduledRotateValidators network payload)

-- The signatures of the retiring set are cleared.
def resetSigned (newId : ValidatorSetId) (s : State AccountId TheaId Signature W)
    (network : Network) : State AccountId TheaId Signature W := { s with
  signedOutgoingMessages := fun key =>
    if key.1 = network ∧ s.nextSignedNonce network ≤ key.2 ∧ key.2 ≤ s.outgoingNonce network
    then (s.signedOutgoingMessages key).map ({ · with validatorSetId := newId, signatures := ∅ })
    else s.signedOutgoingMessages key }

def notifyRotated (notified : Network → Bool) (s : State AccountId TheaId Signature W)
    (network : Network) : State AccountId TheaId Signature W :=
  if notified network
  then s.insertOutgoing (s.generatePayload .validatorsRotated network [])
  else s.depositEvent (.unableToGenerateValidatorSet network)

-- The incoming set becomes the active one, and the one before the outgoing set is pruned.
def rotateAuthorities (s : State AccountId TheaId Signature W) (networks : List Network)
    (incoming : List TheaId) (newId : ValidatorSetId) (notified : Network → Bool) :
    State AccountId TheaId Signature W :=
  let s := { s with
    authorities := update (update s.authorities newId incoming) (newId - 2) []
    validatorSetId := newId }
  networks.foldl (notifyRotated notified) (networks.foldl (resetSigned newId) s)

variable [DecidableEq TheaId]

def scheduleRotations (s : State AccountId TheaId Signature W) (networks : List Network)
    (incoming queued : List TheaId) (newId : ValidatorSetId) :
    State AccountId TheaId Signature W :=
  if incoming.toFinset ≠ queued.toFinset
  then { networks.foldl (scheduleRotation queued newId) s with nextAuthorities := queued }
  else s

def changeAuthorities (s : State AccountId TheaId Signature W) (incoming queued : List TheaId) :
    State AccountId TheaId Signature W :=
  let newId := Word.wrappingAdd 64 s.validatorSetId 1
  let networks := s.activeNetworks.toList
  -- A network for which the rotation could not be scheduled is not told about it later on.
  let notified network :=
    incoming.toFinset = queued.toFinset || (s.rotationPayload queued newId network).isSome
  let scheduled := s.scheduleRotations networks incoming queued newId
  if incoming.toFinset ≠ s.activeAuthorities.toFinset
  then scheduled.rotateAuthorities networks incoming newId notified
  else scheduled

def onNewSession (s : State AccountId TheaId Signature W) (validators queued : List TheaId) :
    State AccountId TheaId Signature W :=
  s.changeAuthorities (validators.take (Config.maxAuthorities TheaId))
    (queued.take (Config.maxAuthorities TheaId))

end Rotation

end State

inductive Call (AccountId TheaId Signature : Type)
  | submitIncomingMessage (signer : AccountId) (payload : Message) (stake : ℕ)
  | sendTheaMessage (data : Bytes) (network : Network)
  | updateIncomingNonce (nonce : ℕ) (network : Network)
  | updateOutgoingNonce (nonce : Fin (2 ^ 64)) (network : Network)
  | addTheaNetwork (network : Network) (isEvm : Bool) (forkPeriod minStake fishermanStake : ℕ)
  | removeTheaNetwork (network : Network)
  | submitSignedOutgoingMessages (authIndex : ℕ) (id : ValidatorSetId)
      (signatures : List (Network × ℕ × Signature))
  | reportMisbehaviour (fisherman : AccountId) (network : Network) (nonce : ℕ)
  | handleMisbehaviour (network : Network) (nonce : ℕ) (acceptance : Bool)
  | newSession (validators queued : List TheaId)
  | nextBlock

variable [Currency AccountId W] [Executor W] [Authority TheaId Signature] [Config TheaId]
  [DecidableEq TheaId]

-- The unsigned call is dispatched if it was found to be valid in the state in which it is applied.
def dispatch (s : State AccountId TheaId Signature W) :
    Call AccountId TheaId Signature → Except Error (State AccountId TheaId Signature W)
  | .submitIncomingMessage signer payload stake => s.submitIncomingMessage signer payload stake
  | .sendTheaMessage data network => s.executeWithdrawals network data
  | .updateIncomingNonce nonce network => .ok (s.updateIncomingNonce nonce network)
  | .updateOutgoingNonce nonce network => s.updateOutgoingNonce nonce network
  | .addTheaNetwork network isEvm forkPeriod minStake fishermanStake =>
      s.addTheaNetwork network isEvm forkPeriod minStake fishermanStake
  | .removeTheaNetwork network => .ok (s.removeTheaNetwork network)
  | .submitSignedOutgoingMessages authIndex id signatures =>
      match s.validateSignedOutgoingMessage authIndex id signatures with
      | .error code => .error (.invalidTransaction code)
      | .ok () => s.submitSignedOutgoingMessages authIndex id signatures
  | .reportMisbehaviour fisherman network nonce => s.reportMisbehaviour fisherman network nonce
  | .handleMisbehaviour network nonce acceptance => s.handleMisbehaviour network nonce acceptance
  | .newSession validators queued => .ok (s.onNewSession validators queued)
  | .nextBlock =>
      let blk := s.currentBlockNumber + 1
      .ok <| State.onInitialize { s with currentBlockNumber := blk } blk

def step (s : State AccountId TheaId Signature W) (c : Call AccountId TheaId Signature) :
    Option (State AccountId TheaId Signature W) :=
  (dispatch s c).toOption

-- The balances of a mock runtime, in which an account may hold back a part of its funds.
structure Mock where
  free : ℕ → ℕ
  held : ℕ → ℕ

namespace Mock

instance : Currency ℕ Mock where
  reducibleBalance w who := w.free who
  hold w who amount :=
    if amount ≤ w.free who then
      .ok { free := update w.free who (w.free who - amount),
            held := update w.held who (w.held who + amount) }
    else
      .error "FundsUnavailable"
  release w who amount :=
    let amount := min amount (w.held who)
    .ok { free := update w.free who (w.free who + amount),
          held := update w.held who (w.held who - amount) }
  transfer w source dest amount :=
    if amount ≤ w.free source then
      let free := update w.free source (w.free source - amount)
      .ok { w with free := update free dest (free dest + amount) }
    else
      .error "FundsUnavailable"
  burnFrom w who amount :=
    .ok { w with free := update w.free who (w.free who - min amount (w.free who)) }

instance : Executor Mock where
  executeDeposits w _ _ := .ok w

-- A signature names its signer and the message that was signed.
instance : Authority ℕ (ℕ × Message) where
  verify signature message signer := signature = (signer, message)

instance : Config ℕ where
  maxAuthorities := 200
  encodeValidatorSet validators id := (id :: validators).map UInt8.ofNat

end Mock

end Thea
