import PolkadexModel.Ocex.Pallet

namespace Ocex

-- The batches are signed with the key of the operator.
class OperatorKey (AccountId Signature : Type) where
  verify : UserActionBatch AccountId Signature → ℕ → Bool

-- All contents of the off-chain trie.
structure Trie (AccountId : Type) where
  state : OffchainState AccountId
  stateInfo : Option StateInfo

-- The root of the trie, which only depends on its contents.
class TrieRoot (AccountId : Type) where
  root : Trie AccountId → ℕ

variable {AccountId AuthorityId Signature W : Type}

def check (p : Prop) [Decidable p] (message : String) : Except Fault Unit :=
  if p then .ok () else .error (.error message)

namespace OffchainState

section Import

variable [DecidableEq AccountId] [PalletAccounts AccountId] [Decimal.Arith]

-- The shares of the first deposit are its value.
def sharesMinted (givenInventory totalShares totalInventory : Decimal) : Except Fault Decimal :=
  if totalInventory.isZero then .ok givenInventory
  else
    (Decimal.Arith.checkedDiv (givenInventory.saturatingMul totalShares) totalInventory).elim
      (.error (.panic "Division overflowed")) .ok

-- The result of the engine for an added liquidity, which is already contained in the balances.
def verifyAddLiquidity (s : OffchainState AccountId) (market : TradingPairConfig)
    (pool lp : AccountId) (totalShares baseDeposited quoteDeposited : Decimal) :
    Option (EgressMessages AccountId) → Except Fault (EgressMessages AccountId)
  | none => .error (.error "Unable to find Egress message for AddLiquidity")
  | some (.addLiquidityResult market' pool' lp' issuedShares price totalInventory) => do
    check (pool = pool') "Invalid Pool id in egress"
    check (lp = lp') "Invalid LP address in egress"
    let baseBalance := s.getBalance pool market.baseAsset
    let quoteBalance := s.getBalance pool market.quoteAsset
    check (totalInventory ≈ quoteBalance.saturatingAdd (price.saturatingMul baseBalance))
      "Inventory Mismatch"
    let givenInventory := (baseDeposited.saturatingMul price).saturatingAdd quoteDeposited
    let minted ← sharesMinted givenInventory totalShares totalInventory
    check (issuedShares ≈ minted) "Invalid number of LP shares minted"
    return .addLiquidityResult market' pool' lp' issuedShares price totalInventory
  | some _ => .error (.error "Invalid Engine Egress message")

def importAddLiquidity (s : OffchainState AccountId) (market : TradingPairConfig)
    (pool lp : AccountId) (totalShares baseDeposited quoteDeposited : Decimal)
    (engineMessage : Option (EgressMessages AccountId)) :
    Except Fault (OffchainState AccountId × EgressMessages AccountId) := do
  let s := s.addBalance pool market.baseAsset baseDeposited
  let s := s.addBalance pool market.quoteAsset quoteDeposited
  let egress ← s.verifyAddLiquidity market pool lp totalShares baseDeposited quoteDeposited
    engineMessage
  return (s, egress)

-- The assets that are taken are those of the market in the message of the engine.
def importRemoveLiquidity (s : OffchainState AccountId) (market : TradingPairConfig)
    (pool lp : AccountId) (burnFrac : Decimal) :
    Option (EgressMessages AccountId) →
    Except Fault (OffchainState AccountId × EgressMessages AccountId)
  | none => .error (.error "RemoveLiquidity engine message not found")
  | some (.removeLiquidityResult market' pool' lp' baseFreed quoteFreed) => do
    let base := burnFrac.saturatingMul (s.getBalance pool market.baseAsset)
    let quote := burnFrac.saturatingMul (s.getBalance pool market.quoteAsset)
    check (pool = pool') "Invalid Pool id in egress"
    check (lp = lp') "Invalid LP address in egress"
    check (quote ≈ quoteFreed) "Invalid quote amount freed!"
    check (base ≈ baseFreed) "Invalid base amount freed!"
    let (s, _) ← s.subBalance pool market'.quoteAsset quote false
    let (s, _) ← s.subBalance pool market'.baseAsset base false
    return (s, .removeLiquidityResult market' pool' lp' baseFreed quoteFreed)
  | some (.removeLiquidityFailed market' pool' lp' burnFrac' totalShares baseFree quoteFree
      baseRequired quoteRequired) => do
    let base := burnFrac.saturatingMul (s.getBalance pool market.baseAsset)
    let quote := burnFrac.saturatingMul (s.getBalance pool market.quoteAsset)
    check (pool = pool') "Invalid Pool id in egress"
    check (lp = lp') "Invalid LP address in egress"
    check (burnFrac ≈ burnFrac') "Invalid Burn fraction in egress"
    check (quote ≈ quoteRequired) "Invalid quote amount required by engine!"
    check (base ≈ baseRequired) "Invalid base amount required by engine!"
    check (¬quote ≤ quoteFree) "Enough quote available but still denied by engine!"
    check (¬base ≤ baseFree) "Enough base balance available but still denied by engine!"
    return (s, .removeLiquidityFailed market' pool' lp' burnFrac' totalShares baseFree quoteFree
      baseRequired quoteRequired)
  | some _ => .error (.error "Invalid engine message")

def importForceClosePool (s : OffchainState AccountId) (market : TradingPairConfig)
    (pool : AccountId) : Except Fault (OffchainState AccountId × EgressMessages AccountId) := do
  let base := s.getBalance pool market.baseAsset
  let quote := s.getBalance pool market.quoteAsset
  let (s, _) ← s.subBalance pool market.baseAsset base false
  let (s, _) ← s.subBalance pool market.quoteAsset quote false
  return (s, .poolForceClosed market pool base quote)

-- The fees of one asset, if the engine withdraws them.
def withdrawFees (fees : Std.TreeMap AssetId Decimal) (s : OffchainState AccountId)
    (asset : AssetId) : Except Fault (OffchainState AccountId) :=
  match fees[asset]? with
  | none => .ok s
  | some expected => do
    check (¬expected.isZero) "InvalidTradingFeesValue"
    let balance := Order.roundingOff (s.getBalance PalletAccounts.potAccount asset)
    check (balance ≈ expected) "Incorrect Trading fees accounting"
    let (s, _) ← s.subBalance PalletAccounts.potAccount asset balance true
    return s

def importTradingFees (s : OffchainState AccountId) (allowlistedToken : Std.TreeSet AssetId) :
    Option (EgressMessages AccountId) →
    Except Fault (OffchainState AccountId × EgressMessages AccountId)
  | none => .error (.error "Egress message not found for withdraw trading fees")
  | some (.tradingFees fees) => do
    let s ← allowlistedToken.toList.foldlM (withdrawFees fees) s
    return (s, .tradingFees fees)
  | some _ => .error (.error "Invalid egress message for withdraw trading fees")

-- The stored configuration is replaced, whatever it was.
def startNewLmpEpoch (s : OffchainState AccountId) (epoch : ℕ) : OffchainState AccountId :=
  { s with lmpConfig := some { epoch := epoch, index := 0 } }

-- One message of a block. The verified messages of the engine are collected.
def importMessage (allowlistedToken : Std.TreeSet AssetId)
    (engineMessages : IngressMessages AccountId → Option (EgressMessages AccountId))
    (acc : OffchainState AccountId × List (EgressMessages AccountId)) :
    IngressMessages AccountId →
    Except Fault (OffchainState AccountId × List (EgressMessages AccountId))
  | .deposit _ main asset amount => .ok (acc.1.addBalance main asset amount, acc.2)
  | .addLiquidity market pool lp totalShares baseDeposited quoteDeposited => do
    let (s, egress) ← acc.1.importAddLiquidity market pool lp totalShares baseDeposited quoteDeposited
      (engineMessages (.addLiquidity market pool lp totalShares baseDeposited quoteDeposited))
    return (s, acc.2 ++ [egress])
  | .removeLiquidity market pool lp burnFrac totalShares => do
    let (s, egress) ← acc.1.importRemoveLiquidity market pool lp burnFrac
      (engineMessages (.removeLiquidity market pool lp burnFrac totalShares))
    return (s, acc.2 ++ [egress])
  | .forceClosePool market pool => do
    let (s, egress) ← acc.1.importForceClosePool market pool
    return (s, acc.2 ++ [egress])
  | .withdrawTradingFees => do
    let (s, egress) ← acc.1.importTradingFees allowlistedToken (engineMessages .withdrawTradingFees)
    return (s, acc.2 ++ [egress])
  | .newLMPEpoch epoch => .ok (acc.1.startNewLmpEpoch epoch, acc.2)
  | _ => .ok acc

end Import

end OffchainState

namespace Trie

def empty : Trie AccountId where
  state := .empty
  stateInfo := none

def loadStateInfo (trie : Trie AccountId) : StateInfo :=
  trie.stateInfo.getD {}

end Trie

variable [Ord AccountId] {cfg : Config}

section Batches

variable [DecidableEq AccountId] [PalletAccounts AccountId] [Decimal.Arith]

-- The messages of a block are those which the chain has queued for it. The blocks are imported one
-- after the other.
def importBlk (chain : State AccountId AuthorityId W cfg) (blk : ℕ) (s : OffchainState AccountId)
    (info : StateInfo)
    (engineMessages : IngressMessages AccountId → Option (EgressMessages AccountId)) :
    Except Fault (OffchainState AccountId × StateInfo × List (EgressMessages AccountId)) := do
  check (info.lastBlock = 0 ∨ blk = Word.saturatingAdd 32 info.lastBlock 1) "BlockOutofSequence"
  let (s, egress) ← (chain.ingressMessages blk).toList.foldlM
    (OffchainState.importMessage chain.allowlistedToken engineMessages) (s, [])
  return (s, { info with lastBlock := blk }, egress)

variable [Verify AccountId Signature]

-- The fees do not depend on the accounts.
def settleTrade (chain : State AccountId AuthorityId W cfg) (s : OffchainState AccountId)
    (t : Trade AccountId Signature) : Except Fault (OffchainState AccountId) :=
  match chain.tradingPairs t.maker.pair with
  | none        => .error (.error "TradingPairNotFound")
  | some config => s.processTrade t config {} {}

def trades (chain : State AccountId AuthorityId W cfg) (s : OffchainState AccountId)
    (ts : List (Trade AccountId Signature)) : Except Fault (OffchainState AccountId) :=
  ts.foldlM (settleTrade chain) s

-- The registered accounts are not consulted.
def withdraw [FromText] (request : WithdrawalRequest AccountId Signature)
    (s : OffchainState AccountId) (stid : ℕ) :
    Except Fault (OffchainState AccountId × Withdrawal AccountId) :=
  match request.amount with
  | none => .error (.error "decimal conversion error")
  | some amount => do
    check request.verify "SignatureVerificationFailed"
    let (s, deducted) ← s.subBalance request.main request.asset amount true
    match request.convert stid with
    | none => .error (.error "Withdrawal conversion error")
    | some withdrawal => return (s, { withdrawal with amount := deducted })

-- What a batch has brought about so far.
structure BatchState (AccountId : Type) where
  state : OffchainState AccountId
  info : StateInfo
  withdrawals : List (Withdrawal AccountId) := []
  egressMessages : List (EgressMessages AccountId) := []

def processAction [FromText] (chain : State AccountId AuthorityId W cfg) (b : BatchState AccountId) :
    UserActions AccountId Signature → Except Fault (BatchState AccountId)
  | .trade ts => do
    let state ← trades chain b.state ts
    return { b with state := state }
  | .withdraw request => do
    let (state, withdrawal) ← Ocex.withdraw request b.state 0
    return { b with state := state, withdrawals := b.withdrawals ++ [withdrawal] }
  | .blockImport blk engineMessages priceOracle => do
    let (state, info, egress) ← importBlk chain blk b.state b.info engineMessages
    return { b with
      state := state
      info := info
      egressMessages := b.egressMessages ++ egress ++ [.priceOracle priceOracle] }
  | .reset => .ok b
  | .withdrawV1 request stid => do
    let (state, withdrawal) ← Ocex.withdraw request b.state stid
    return { b with state := state, withdrawals := b.withdrawals ++ [withdrawal] }
  | .oneMinLMPReport _ _ _ => .ok b

def processBatch [FromText] (chain : State AccountId AuthorityId W cfg)
    (s : OffchainState AccountId) (info : StateInfo) (batch : UserActionBatch AccountId Signature) :
    Except Fault (BatchState AccountId) := do
  check (info.stid < batch.stid) "Invalid stid"
  batch.actions.foldlM (processAction chain) { state := s, info := info }

end Batches

structure ObCheckpointRaw (AccountId : Type) where
  snapshotId : ℕ
  balances : List (AccountAsset AccountId × Decimal)
  lastProcessedBlockNumber : ℕ
  stateChangeId : ℕ

-- The keys of the accounts on the chain and of the balances of an account, in the order in which they
-- are iterated over.
structure StorageKeys (chain : State AccountId AuthorityId W cfg) (s : OffchainState AccountId) where
  accountIds : List AccountId
  assets : AccountId → List AssetId
  mem_accountIds : ∀ account, account ∈ accountIds ↔ (chain.accounts account).isSome
  mem_assets : ∀ account asset, asset ∈ assets account ↔ (s.entry account asset).isSome

-- The balances of the main accounts and of the pot.
def fetchCheckpoint [PalletAccounts AccountId] {chain : State AccountId AuthorityId W cfg}
    (trie : Trie AccountId) (keys : StorageKeys chain trie.state) : ObCheckpointRaw AccountId where
  snapshotId := trie.loadStateInfo.snapshotId
  balances := (keys.accountIds ++ [PalletAccounts.potAccount]).flatMap fun main =>
    (keys.assets main).map fun asset => (⟨main, asset⟩, trie.state.getBalance main asset)
  lastProcessedBlockNumber := trie.loadStateInfo.lastBlock
  stateChangeId := trie.loadStateInfo.stid

def OffchainState.processCheckpoint [DecidableEq AccountId] (s : OffchainState AccountId)
    (checkpoint : ObCheckpointRaw AccountId) : OffchainState AccountId :=
  checkpoint.balances.foldl (fun s entry => s.setEntry entry.1.main entry.1.asset entry.2) s

def StateInfo.update (info : StateInfo) (checkpoint : ObCheckpointRaw AccountId) : StateInfo :=
  { info with
    snapshotId := checkpoint.snapshotId
    stid := checkpoint.stateChangeId
    lastBlock := checkpoint.lastProcessedBlockNumber }

-- What the aggregator serves.
structure Aggregator (AccountId Signature : Type) where
  userActionBatch : ℕ → Option (UserActionBatch AccountId Signature)
  checkpoint : Option (ObCheckpointRaw AccountId)

def checkpointBlocks : ℕ := 1260

section Worker

-- A running worker. The contents under the stored root are those that the next worker starts with.
structure Worker (AccountId : Type) where
  stored : Trie AccountId
  state : OffchainState AccountId
  info : StateInfo

inductive Outcome (AccountId : Type) [Ord AccountId]
  -- The summary of the snapshot was already made, and is sent again.
  | resubmitted (snapshotId : ℕ)
  | noUserActions (nonce : ℕ)
  | processed (summary : SnapshotSummary AccountId)

-- A state that does not match the last snapshot is dropped. The worker itself goes on with it, unless
-- it is so far behind that it needs a checkpoint.
def loadWorker [TrieRoot AccountId] (chain : State AccountId AuthorityId W cfg)
    (trie : Trie AccountId) (nextNonce : ℕ) : Except Fault (Worker AccountId) :=
  let info := trie.loadStateInfo
  match chain.snapshots info.snapshotId with
  | some summary =>
    if summary.stateHash = TrieRoot.root trie then .ok ⟨trie, trie.state, info⟩
    else .ok ⟨.empty, trie.state,
      { info with lastBlock := 0, snapshotId := nextNonce - checkpointBlocks }⟩
  | none =>
    if info.snapshotId ≠ 0 ∧ info.snapshotId ≠ nextNonce then
      .error (.error "Unable to load last processed snapshot summary from on-chain")
    else
      .ok ⟨trie, trie.state, info⟩

-- As long as no snapshot was processed, any block can be the first one.
def resetLastBlock (w : Worker AccountId) : Worker AccountId :=
  if w.info.snapshotId = 0 then { w with info := { w.info with lastBlock := 0 } } else w

-- The state info is stored with the rest of the contents.
def commit (s : OffchainState AccountId) (info : StateInfo) : Worker AccountId where
  stored := ⟨s, some info⟩
  state := s
  info := info

-- The worker, and the number of the last snapshot that it has processed.
def loadCheckpoint [DecidableEq AccountId] [TrieRoot AccountId]
    (chain : State AccountId AuthorityId W cfg) (agg : Aggregator AccountId Signature)
    (nextNonce : ℕ) (w : Worker AccountId) : Except Fault (Worker AccountId × ℕ) :=
  if checkpointBlocks ≤ nextNonce - w.info.snapshotId then
    match agg.checkpoint with
    | none => .error (.error "No checkpoint found")
    | some checkpoint =>
      let w := commit (OffchainState.empty.processCheckpoint checkpoint) (w.info.update checkpoint)
      match chain.snapshots checkpoint.snapshotId with
      | none => .error (.error "Snapshot not found")
      | some summary =>
        if summary.stateHash = TrieRoot.root w.stored then .ok (w, summary.snapshotId)
        else .error (.error "State root mismatch")
  else
    .ok (w, w.info.snapshotId)

def verifyBatchSignature [OperatorKey AccountId Signature]
    (chain : State AccountId AuthorityId W cfg) (batch : UserActionBatch AccountId Signature) : Bool :=
  match chain.orderbookOperatorPublicKey with
  | none     => false
  | some key => OperatorKey.verify batch key

def commitBatch (b : BatchState AccountId) (batch : UserActionBatch AccountId Signature) :
    Worker AccountId :=
  commit b.state { b.info with stid := batch.stid, snapshotId := batch.snapshotId }

variable [DecidableEq AccountId] [PalletAccounts AccountId] [Decimal.Arith]
  [Verify AccountId Signature] [FromText] [OperatorKey AccountId Signature]

-- The loop which makes up for the batches that were missed. It may end with the whole worker.
def syncBatches (chain : State AccountId AuthorityId W cfg)
    (userActionBatch : ℕ → Option (UserActionBatch AccountId Signature)) :
    List ℕ → Worker AccountId → Worker AccountId × Option (Except Fault (Outcome AccountId))
  | [], w => (w, none)
  | nonce :: nonces, w =>
    match userActionBatch nonce with
    | none => (w, some (.ok (.noUserActions nonce)))
    | some batch =>
      if verifyBatchSignature chain batch then
        match processBatch chain w.state w.info batch with
        | .ok b             => syncBatches chain userActionBatch nonces (commitBatch b batch)
        | .error (.error _) => (w, some (.error (.error "Sync failed")))
        | .error (.panic m) => (w, some (.error (.panic m)))
      else
        (w, some (.error (.error "Invalid batch signature")))

def processNext [TrieRoot AccountId] (chain : State AccountId AuthorityId W cfg)
    (userActionBatch : ℕ → Option (UserActionBatch AccountId Signature)) (nextNonce : ℕ)
    (w : Worker AccountId) : Trie AccountId × Except Fault (Outcome AccountId) :=
  match userActionBatch nextNonce with
  | none =>
    ((commit w.state { w.info with snapshotId := nextNonce - 1 }).stored,
      .ok (.noUserActions nextNonce))
  | some batch =>
    if verifyBatchSignature chain batch then
      match processBatch chain w.state w.info batch with
      | .error e => (w.stored, .error e)
      | .ok b =>
        let w := commitBatch b batch
        (w.stored, .ok (.processed {
          validatorSetId := chain.validatorSetId
          snapshotId := nextNonce
          stateHash := TrieRoot.root w.stored
          stateChangeId := batch.stid
          lastProcessedBlk := w.info.lastBlock
          withdrawals := b.withdrawals
          egressMessages := b.egressMessages
          traderMetrics := none }))
    else
      (w.stored, .error (.error "Invalid batch signature"))

-- The worker of a validator with a key that is in the active set. The result starts with the contents
-- which it leaves behind.
def runOnChainValidation [TrieRoot AccountId] (chain : State AccountId AuthorityId W cfg)
    (agg : Aggregator AccountId Signature) (trie : Trie AccountId) :
    Trie AccountId × Except Fault (Outcome AccountId) :=
  let nextNonce := Word.saturatingAdd 64 chain.snapshotNonce 1
  match loadWorker chain trie nextNonce with
  | .error e => (trie, .error e)
  | .ok w =>
    let w := resetLastBlock w
    if w.info.snapshotId = nextNonce then
      (w.stored, .ok (.resubmitted nextNonce))
    else
      match loadCheckpoint chain agg nextNonce w with
      | .error e => (w.stored, .error e)
      | .ok (w, last) =>
        let nonces := List.range' (last + 1) (nextNonce - (last + 1))
        match syncBatches chain agg.userActionBatch nonces w with
        | (w, some result) => (w.stored, result)
        | (w, none)        => processNext chain agg.userActionBatch nextNonce w

end Worker

namespace Mock

def digits (cs : List Char) : Option ℕ :=
  cs.foldlM (fun n c => if c.isDigit then some (10 * n + (c.toNat - '0'.toNat)) else none) 0

-- A number with decimal places.
def unsigned (cs : List Char) : Option Decimal := do
  let whole := cs.takeWhile (· ≠ '.')
  let places := (cs.dropWhile (· ≠ '.')).drop 1
  let n ← digits (whole ++ places)
  if h : n < 2 ^ 96 ∧ places.length ≤ 28 ∧ whole ++ places ≠ [] then
    some ⟨n, places.length, by simpa using h.1, h.2.1⟩
  else
    none

def negated (x : Decimal) : Decimal :=
  ⟨-x.mantissa, x.scale, by simpa using x.mantissa_lt, x.scale_le⟩

instance : FromText where
  parse text :=
    match text.toList with
    | '-' :: cs => (unsigned cs).map negated
    | cs        => unsigned cs

end Mock

end Ocex
