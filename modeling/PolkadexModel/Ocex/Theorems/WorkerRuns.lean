import PolkadexModel.Ocex.Theorems.Replication

open List

namespace Ocex

variable {Acc Auth Sign W : Type} [Ord Acc] {cfg : Config}

section Start

variable {chain : State Acc Auth W cfg} {agg : Aggregator Acc Sign}
  {trie : Trie Acc} {w : Worker Acc}

-- The nonces for which a worker fetches batches: those that it has missed, and the next one.
def batchNonces (last nextNonce : ℕ) : List ℕ :=
  List.range' (last + 1) (nextNonce - (last + 1)) ++ [nextNonce]

theorem batchNonces_eq (h : last < nextNonce) :
    batchNonces last nextNonce = List.range' (last + 1) (nextNonce - last) := by
  have hlen : nextNonce - last = nextNonce - (last + 1) + 1 := by omega
  rw [batchNonces, hlen, range'_1_concat]
  congr 2
  omega

def State.nextNonce (chain : State Acc Auth W cfg) : ℕ :=
  Word.saturatingAdd 64 chain.snapshotNonce 1

omit [Ord Acc] in
theorem resetLastBlock_snapshotId (w : Worker Acc) :
    (resetLastBlock w).info.snapshotId = w.info.snapshotId := by
  unfold resetLastBlock
  split <;> rfl

omit [Ord Acc] in
theorem resetLastBlock_stored (w : Worker Acc) : (resetLastBlock w).stored = w.stored := by
  unfold resetLastBlock
  split <;> rfl

variable [TrieRoot Acc]

-- The root of the contents is that of the snapshot which they belong to.
def Matches (chain : State Acc Auth W cfg) (trie : Trie Acc) : Prop :=
  ∀ summary, chain.snapshots trie.loadStateInfo.snapshotId = some summary →
    summary.stateHash = TrieRoot.root trie

theorem loadWorker_of_matches (hm : Matches chain trie)
    (hl : loadWorker chain trie chain.nextNonce = .ok w) :
    w = ⟨trie, trie.state, trie.loadStateInfo⟩ := by
  simp only [loadWorker] at hl
  split at hl
  case h_1 summary hs =>
    rw [if_pos (hm summary hs)] at hl
    exact (Except.ok.inj hl).symm
  case h_2 =>
    split_ifs at hl
    exact (Except.ok.inj hl).symm

theorem loadWorker_eq (hm : Matches chain trie)
    (hk : chain.snapshots trie.loadStateInfo.snapshotId = none → trie.loadStateInfo.snapshotId = 0) :
    loadWorker chain trie chain.nextNonce = .ok ⟨trie, trie.state, trie.loadStateInfo⟩ := by
  simp only [loadWorker]
  cases hs : chain.snapshots trie.loadStateInfo.snapshotId with
  | none => simp [hk hs]
  | some summary => simp [hm summary hs]

variable [DecidableEq Acc]

-- How a worker gets to its first batch, with the number of the last snapshot that it has processed:
-- with the contents that it has found, or with those of a checkpoint, which it stores.
inductive Begins (chain : State Acc Auth W cfg) (agg : Aggregator Acc Sign)
    (trie : Trie Acc) : Worker Acc → ℕ → Prop
  | own : trie.loadStateInfo.snapshotId ≠ chain.nextNonce →
      chain.nextNonce - trie.loadStateInfo.snapshotId < checkpointBlocks →
      Begins chain agg trie (resetLastBlock ⟨trie, trie.state, trie.loadStateInfo⟩)
        trie.loadStateInfo.snapshotId
  | checkpoint {checkpoint summary w} :
      checkpointBlocks ≤ chain.nextNonce - trie.loadStateInfo.snapshotId →
      agg.checkpoint = some checkpoint → chain.snapshots checkpoint.snapshotId = some summary →
      w = commit (OffchainState.empty.processCheckpoint checkpoint) (StateInfo.update
        (resetLastBlock ⟨trie, trie.state, trie.loadStateInfo⟩).info checkpoint) →
      summary.stateHash = TrieRoot.root w.stored → Begins chain agg trie w summary.snapshotId

-- The worker with which the batches begin, if it gets to them.
def startWorker (chain : State Acc Auth W cfg) (agg : Aggregator Acc Sign)
    (trie : Trie Acc) : Option (Worker Acc × ℕ) :=
  match loadWorker chain trie chain.nextNonce with
  | .error _ => none
  | .ok w =>
    if (resetLastBlock w).info.snapshotId = chain.nextNonce then none
    else (loadCheckpoint chain agg chain.nextNonce (resetLastBlock w)).toOption

theorem startWorker_of_begins (hb : Begins chain agg trie w last)
    (hl : loadWorker chain trie chain.nextNonce = .ok ⟨trie, trie.state, trie.loadStateInfo⟩) :
    startWorker chain agg trie = some (w, last) := by
  simp only [startWorker, hl, resetLastBlock_snapshotId]
  cases hb with
  | own hne hlt =>
    simp only [hne, if_false, loadCheckpoint, resetLastBlock_snapshotId, Nat.not_le.mpr hlt]
    rfl
  | checkpoint hle hc hs hw hroot =>
    have hne : trie.loadStateInfo.snapshotId ≠ chain.nextNonce := by
      intro he
      simp [he, checkpointBlocks] at hle
    simp only [hne, if_false, loadCheckpoint, resetLastBlock_snapshotId, hle, if_true, hc, hs, ← hw,
      hroot]
    rfl

end Start

section Batches

variable [DecidableEq Acc] [PalletAccounts Acc] [Decimal.Arith]
  [Verify Acc Sign] [FromText] [OperatorKey Acc Sign] [TrieRoot Acc]
variable {chain : State Acc Auth W cfg} {agg : Aggregator Acc Sign}
  {trie : Trie Acc} {w w' : Worker Acc} {last n : ℕ} {ns : List ℕ}
  {batch : UserActionBatch Acc Sign}

-- What the worker leaves behind and returns after the loop.
def conclude (chain : State Acc Auth W cfg) (agg : Aggregator Acc Sign) :
    Worker Acc × Option (Except Fault (Outcome Acc)) →
    Trie Acc × Except Fault (Outcome Acc)
  | (w, some result) => (w.stored, result)
  | (w, none)        => processNext chain agg.userActionBatch chain.nextNonce w

theorem runOnChainValidation_of_start (hs : startWorker chain agg trie = some (w, last)) :
    runOnChainValidation chain agg trie = conclude chain agg (syncBatches chain agg.userActionBatch
      (List.range' (last + 1) (chain.nextNonce - (last + 1))) w) := by
  simp only [startWorker] at hs
  split at hs
  case h_1 => cases hs
  case h_2 hl =>
    split_ifs at hs with hne
    have hc := toOption_eq_some.mp hs
    rw [State.nextNonce] at hl hne hc
    cases hs : syncBatches chain agg.userActionBatch
        (range' (last + 1) (chain.nextNonce - (last + 1))) w with
    | mk w' result =>
      rw [State.nextNonce] at hs
      cases result
      all_goals simp only [runOnChainValidation, hl, hne, if_false, hc, hs, conclude, State.nextNonce]

theorem runOnChainValidation_of_not_start (hs : startWorker chain agg trie = none)
    (summary : SnapshotSummary Acc) :
    (runOnChainValidation chain agg trie).2 ≠ .ok (.processed summary) := by
  simp only [startWorker] at hs
  split at hs
  case h_1 hl =>
    rw [State.nextNonce] at hl
    simp [runOnChainValidation, hl]
  case h_2 hl =>
    rw [State.nextNonce] at hl
    simp only [runOnChainValidation, hl]
    split_ifs at hs with hne
    · rw [State.nextNonce] at hne
      simp [hne]
    · rw [State.nextNonce] at hne hs
      simp only [hne, if_false]
      cases hc : loadCheckpoint chain agg (Word.saturatingAdd 64 chain.snapshotNonce 1)
        (resetLastBlock _) with
      | error e => simp
      | ok r => simp [hc, Except.toOption] at hs

section Failure

-- The worker after it has processed the batches, all of which have to be accepted.
def Worker.processAll (chain : State Acc Auth W cfg) (w : Worker Acc)
    (batches : List (UserActionBatch Acc Sign)) : Except Fault (Worker Acc) :=
  batches.foldlM (fun w batch => do
    let b ← processBatch chain w.state w.info batch
    return commitBatch b batch) w

omit [TrieRoot Acc] in
theorem syncBatches_ok (hb : agg.userActionBatch n = some batch)
    (hv : verifyBatchSignature chain batch) (hp : processBatch chain w.state w.info batch = .ok b) :
    syncBatches chain agg.userActionBatch (n :: ns) w =
      syncBatches chain agg.userActionBatch ns (commitBatch b batch) := by
  simp [syncBatches, hb, hv, hp]

omit [TrieRoot Acc] in
theorem syncBatches_error (ns : List ℕ) (hb : agg.userActionBatch n = some batch)
    (hv : verifyBatchSignature chain batch) (hp : processBatch chain w.state w.info batch = .error e) :
    ∃ e', syncBatches chain agg.userActionBatch (n :: ns) w = (w, some (.error e')) := by
  cases e <;> simp [syncBatches, hb, hv, hp]

-- The run lemma: the loop stops at the batch which fails, with what is stored after the one before.
theorem conclude_of_failure
    (hb : ((ns ++ [chain.nextNonce]).take (batches.length + 1)).map agg.userActionBatch =
      (batches ++ [batch]).map some) (hv : ∀ b ∈ batches ++ [batch], verifyBatchSignature chain b)
    (hw : w.processAll chain batches = .ok w') (he : processBatch chain w'.state w'.info batch = .error e) :
    ∃ e', conclude chain agg (syncBatches chain agg.userActionBatch ns w) = (w'.stored, .error e') := by
  induction ns generalizing w batches with
  | nil =>
    cases batches with
    | nil =>
      cases hw
      have hb : agg.userActionBatch chain.nextNonce = some batch := by simpa using hb
      exact ⟨e, by simp [syncBatches, conclude, processNext, hb, hv, he]⟩
    | cons b batches => simp at hb
  | cons n ns hi =>
    cases batches with
    | nil =>
      cases hw
      have hb : agg.userActionBatch n = some batch := by simpa using hb
      obtain ⟨e', hs⟩ := syncBatches_error ns hb (hv batch (by simp)) he
      exact ⟨e', by rw [hs, conclude]⟩
    | cons b batches =>
      simp only [Worker.processAll, foldlM_cons_eq_ok, bind_eq_ok] at hw
      obtain ⟨w₁, ⟨r, hp, hr⟩, hw⟩ := hw
      cases pure_eq_ok.mp hr
      simp only [length_cons, cons_append, take_succ_cons, map_cons,
        cons.injEq] at hb
      rw [syncBatches_ok hb.1 (hv b (by simp)) hp]
      exact hi hb.2 (fun b hm => hv b (by simp_all)) hw

omit [OperatorKey Acc Sign] [TrieRoot Acc] in
theorem Worker.processAll_stored {batches : List (UserActionBatch Acc Sign)}
    (h : w.processAll chain batches = .ok w') (hne : batches ≠ []) :
    w'.stored = ⟨w'.state, some w'.info⟩ := by
  induction batches using reverseRecOn with
  | nil => exact absurd rfl hne
  | append_singleton batches batch _ =>
    simp only [Worker.processAll, Except.foldlM_append_eq_ok, foldlM_cons_eq_ok,
      foldlM_nil_eq_ok, bind_eq_ok] at h
    obtain ⟨_, _, _, ⟨b, _, hb⟩, hw⟩ := h
    rw [← hw, ← pure_eq_ok.mp hb]
    rfl

end Failure

section Identity

-- A batch that was processed, with the nonce for which it was fetched and the worker after it.
structure Processed (Acc Sign : Type) where
  nonce : ℕ
  batch : UserActionBatch Acc Sign
  after : Worker Acc

-- The batches that are processed one after another, up to the first one which is missing or refused.
def processed (chain : State Acc Auth W cfg) (agg : Aggregator Acc Sign) :
    List ℕ → Worker Acc → List (Processed Acc Sign)
  | [], _ => []
  | n :: ns, w =>
    match agg.userActionBatch n with
    | none => []
    | some batch =>
      if verifyBatchSignature chain batch then
        match processBatch chain w.state w.info batch with
        | .error _ => []
        | .ok b    => ⟨n, batch, commitBatch b batch⟩ :: processed chain agg ns (commitBatch b batch)
      else
        []

def processedBy (chain : State Acc Auth W cfg) (agg : Aggregator Acc Sign)
    (trie : Trie Acc) : List (Processed Acc Sign) :=
  match startWorker chain agg trie with
  | none           => []
  | some (w, last) => processed chain agg (batchNonces last chain.nextNonce) w

def lastWorker (w : Worker Acc) (rs : List (Processed Acc Sign)) :
    Worker Acc :=
  rs.foldl (fun _ r => r.after) w

variable {rs : List (Processed Acc Sign)} {r : Processed Acc Sign}

-- What the loop does with its first nonce.
inductive LoopStep (chain : State Acc Auth W cfg) (agg : Aggregator Acc Sign)
    (n : ℕ) (ns : List ℕ) (w : Worker Acc) : Prop
  | processed {batch b} : agg.userActionBatch n = some batch → verifyBatchSignature chain batch →
      syncBatches chain agg.userActionBatch (n :: ns) w =
        syncBatches chain agg.userActionBatch ns (commitBatch b batch) →
      (∀ ns, Ocex.processed chain agg (n :: ns) w =
        ⟨n, batch, commitBatch b batch⟩ :: Ocex.processed chain agg ns (commitBatch b batch)) →
      LoopStep chain agg n ns w
  | stopped {result} : syncBatches chain agg.userActionBatch (n :: ns) w = (w, some result) →
      (∀ summary, result ≠ .ok (.processed summary)) →
      (∀ ns, Ocex.processed chain agg (n :: ns) w = []) → LoopStep chain agg n ns w

omit [TrieRoot Acc] in
theorem loopStep (chain : State Acc Auth W cfg) (agg : Aggregator Acc Sign)
    (n : ℕ) (ns : List ℕ) (w : Worker Acc) : LoopStep chain agg n ns w := by
  cases hb : agg.userActionBatch n with
  | none =>
    have hs : syncBatches chain agg.userActionBatch (n :: ns) w = (w, some (.ok (.noUserActions n))) := by
      simp [syncBatches, hb]
    exact .stopped hs (by simp) (by simp [processed, hb])
  | some batch =>
    cases hv : verifyBatchSignature chain batch with
    | false =>
      have hs : syncBatches chain agg.userActionBatch (n :: ns) w =
          (w, some (.error (.error "Invalid batch signature"))) := by
        simp [syncBatches, hb, hv]
      exact .stopped hs (by simp) (by simp [processed, hb, hv])
    | true =>
      cases hp : processBatch chain w.state w.info batch with
      | error e =>
        obtain ⟨e', hs⟩ := syncBatches_error ns hb hv hp
        exact .stopped hs (by simp) (by simp [processed, hb, hv, hp])
      | ok b => exact .processed hb hv (syncBatches_ok hb hv hp) (by simp [processed, hb, hv, hp])

-- Where the loop gets to: it has processed the batches of all of its nonces, or has ended the worker
-- with the last one that it could process.
inductive Loop (chain : State Acc Auth W cfg) (agg : Aggregator Acc Sign)
    (ns : List ℕ) (w : Worker Acc) : Prop
  | synced : syncBatches chain agg.userActionBatch ns w =
        (lastWorker w (processed chain agg ns w), none) →
      (processed chain agg ns w).map (·.nonce) = ns →
      (∀ ms, processed chain agg (ns ++ ms) w = processed chain agg ns w ++
        processed chain agg ms (lastWorker w (processed chain agg ns w))) → Loop chain agg ns w
  | stopped {result} : syncBatches chain agg.userActionBatch ns w =
        (lastWorker w (processed chain agg ns w), some result) →
      (∀ summary, result ≠ .ok (.processed summary)) →
      (∀ ms, processed chain agg (ns ++ ms) w = processed chain agg ns w) → Loop chain agg ns w

omit [TrieRoot Acc] in
theorem loop (chain : State Acc Auth W cfg) (agg : Aggregator Acc Sign)
    (ns : List ℕ) (w : Worker Acc) : Loop chain agg ns w := by
  induction ns generalizing w with
  | nil => exact .synced rfl rfl fun _ => rfl
  | cons n ns hi =>
    cases loopStep chain agg n ns w with
    | stopped hs hne hp =>
      refine .stopped (by rw [hs, hp]; rfl) hne fun ms => ?_
      rw [cons_append, hp, hp]
    | @processed batch b hb hv hs hp =>
      cases hi (commitBatch b batch) with
      | synced hs' hn hp' =>
        refine .synced (by rw [hs, hs', hp]; rfl) (by rw [hp, map_cons, hn]) fun ms => ?_
        rw [cons_append, hp, hp', hp]
        rfl
      | stopped hs' hne hp' =>
        refine .stopped (by rw [hs, hs', hp]; rfl) hne fun ms => ?_
        rw [cons_append, hp, hp', hp]

-- The three ends of a run which has got to the batches.
inductive Concluded (chain : State Acc Auth W cfg) (agg : Aggregator Acc Sign)
    (ns : List ℕ) (w : Worker Acc) : Prop
  -- The next batch was processed, and its summary is signed.
  | signed {r summary} : processed chain agg (ns ++ [chain.nextNonce]) w =
        processed chain agg ns w ++ [r] → r.nonce = chain.nextNonce →
      summary.snapshotId = chain.nextNonce → summary.stateHash = TrieRoot.root r.after.stored →
      conclude chain agg (syncBatches chain agg.userActionBatch ns w) =
        (r.after.stored, .ok (.processed summary)) → Concluded chain agg ns w
  -- There is no next batch yet.
  | idle : processed chain agg (ns ++ [chain.nextNonce]) w = processed chain agg ns w →
      (processed chain agg ns w).map (·.nonce) = ns →
      conclude chain agg (syncBatches chain agg.userActionBatch ns w) =
        (⟨(lastWorker w (processed chain agg ns w)).state,
          some { (lastWorker w (processed chain agg ns w)).info with
            snapshotId := chain.nextNonce - 1 }⟩, .ok (.noUserActions chain.nextNonce)) →
      Concluded chain agg ns w
  | stopped {result} : processed chain agg (ns ++ [chain.nextNonce]) w = processed chain agg ns w →
      (∀ summary, result ≠ .ok (.processed summary)) →
      conclude chain agg (syncBatches chain agg.userActionBatch ns w) =
        ((lastWorker w (processed chain agg ns w)).stored, result) → Concluded chain agg ns w

theorem concluded (chain : State Acc Auth W cfg) (agg : Aggregator Acc Sign)
    (ns : List ℕ) (w : Worker Acc) : Concluded chain agg ns w := by
  cases loop chain agg ns w with
  | stopped hs hne hp => exact .stopped (hp _) hne (by rw [hs, conclude])
  | synced hs hn hp =>
    have hp := hp [chain.nextNonce]
    cases hb : agg.userActionBatch chain.nextNonce with
    | none =>
      simp only [processed, hb, append_nil] at hp
      exact .idle hp hn (by simp only [hs, conclude, processNext, hb]; rfl)
    | some batch =>
      cases hv : verifyBatchSignature chain batch with
      | false =>
        simp only [processed, hb, hv, Bool.false_eq_true, if_false, append_nil] at hp
        have hc : conclude chain agg (syncBatches chain agg.userActionBatch ns w) =
            ((lastWorker w (processed chain agg ns w)).stored,
              .error (.error "Invalid batch signature")) := by
          simp [hs, conclude, processNext, hb, hv]
        exact .stopped hp (by simp) hc
      | true =>
        simp only [processed, hb, hv, if_true] at hp
        cases hb' : processBatch chain (lastWorker w (processed chain agg ns w)).state
          (lastWorker w (processed chain agg ns w)).info batch with
        | error e =>
          simp only [hb', append_nil] at hp
          have hc : conclude chain agg (syncBatches chain agg.userActionBatch ns w) =
              ((lastWorker w (processed chain agg ns w)).stored, .error e) := by
            simp [hs, conclude, processNext, hb, hv, hb']
          exact .stopped hp (by simp) hc
        | ok b =>
          simp only [hb'] at hp
          obtain ⟨summary, hc, hid, hroot⟩ : ∃ summary,
              conclude chain agg (syncBatches chain agg.userActionBatch ns w) =
                ((commitBatch b batch).stored, .ok (.processed summary)) ∧
              summary.snapshotId = chain.nextNonce ∧
              summary.stateHash = TrieRoot.root (commitBatch b batch).stored := by
            simp only [hs, conclude, processNext, hb, hv, if_true, hb']
            exact ⟨_, rfl, rfl, rfl⟩
          exact .signed hp rfl hid hroot hc

-- The state with which a worker starts, and what the aggregator serves: the contents belong to a
-- snapshot up to the next one, match the chain, and are not so old that a checkpoint is needed; and a
-- batch that is served for a nonce, and is signed by the operator, carries this nonce.
structure Consistent (trie : Trie Acc)
    (i : State Acc Auth W cfg × Aggregator Acc Sign) : Prop where
  behind  : trie.loadStateInfo.snapshotId ≤ i.1.nextNonce
  hash    : Matches i.1 trie
  recent  : i.1.nextNonce - trie.loadStateInfo.snapshotId < checkpointBlocks
  served  : ∀ n batch, i.2.userActionBatch n = some batch → verifyBatchSignature i.1 batch →
    batch.snapshotId = n

-- The processed batches, the state info that is stored after them, and the summary which is signed, all
-- carry the nonce for which the batch was fetched.
structure Identified (chain : State Acc Auth W cfg)
    (agg : Aggregator Acc Sign) (trie : Trie Acc) : Prop where
  batch   : ∀ r ∈ processedBy chain agg trie, r.batch.snapshotId = r.nonce
  info    : ∀ r ∈ processedBy chain agg trie, r.after.stored.loadStateInfo.snapshotId = r.nonce
  summary : ∀ summary, (runOnChainValidation chain agg trie).2 = .ok (.processed summary) →
    ∃ r, (processedBy chain agg trie).getLast? = some r ∧ summary.snapshotId = r.nonce ∧
      (runOnChainValidation chain agg trie).1 = r.after.stored

omit [TrieRoot Acc] in
theorem processed_nonces (chain : State Acc Auth W cfg)
    (agg : Aggregator Acc Sign) (ns : List ℕ) (w : Worker Acc) :
    (processed chain agg ns w).map (·.nonce) <+: ns := by
  induction ns generalizing w with
  | nil => exact prefix_rfl
  | cons n ns hi =>
    cases loopStep chain agg n ns w with
    | processed _ _ _ hp => simpa [hp, cons_prefix_cons] using hi _
    | stopped _ _ hp => simp [hp]

omit [TrieRoot Acc] in
theorem mem_processed (hr : r ∈ processed chain agg ns w) :
    agg.userActionBatch r.nonce = some r.batch ∧ verifyBatchSignature chain r.batch ∧
    r.after.info.snapshotId = r.batch.snapshotId ∧
    r.after.stored = ⟨r.after.state, some r.after.info⟩ := by
  induction ns generalizing w with
  | nil => cases hr
  | cons n ns hi =>
    cases loopStep chain agg n ns w with
    | stopped _ _ hp => rw [hp] at hr; cases hr
    | processed hb hv _ hp =>
      rw [hp] at hr
      cases mem_cons.mp hr with
      | inl he => exact he ▸ ⟨hb, hv, rfl, rfl⟩
      | inr hr => exact hi hr

omit [Ord Acc] [DecidableEq Acc] [PalletAccounts Acc] [Decimal.Arith]
  [Verify Acc Sign] [FromText] [OperatorKey Acc Sign] [TrieRoot Acc] in
theorem lastWorker_snapshotId {id : ℕ} (hw : w.stored.loadStateInfo.snapshotId = id)
    (hn : rs.map (·.nonce) = List.range' (id + 1) rs.length)
    (hr : ∀ r ∈ rs, r.after.stored.loadStateInfo.snapshotId = r.nonce) :
    (lastWorker w rs).stored.loadStateInfo.snapshotId = id + rs.length := by
  cases eq_nil_or_concat' rs with
  | inl he => simpa [he, lastWorker] using hw
  | inr he =>
    obtain ⟨rs', r, rfl⟩ := he
    rw [length_append, length_singleton, range'_1_concat, map_append] at hn
    have hlast : r.nonce = id + 1 + rs'.length := by
      simpa using (append_inj_right' hn rfl)
    rw [lastWorker, foldl_append]
    simp only [foldl_cons, foldl_nil, hr r (by simp), hlast, length_append,
      length_singleton]
    omega

namespace Consistent

omit [PalletAccounts Acc] [Decimal.Arith] [Verify Acc Sign] [FromText] in
theorem start (h : Consistent trie (chain, agg)) (hs : startWorker chain agg trie = some (w, last)) :
    w = resetLastBlock ⟨trie, trie.state, trie.loadStateInfo⟩ ∧
    last = trie.loadStateInfo.snapshotId ∧ last < chain.nextNonce := by
  simp only [startWorker] at hs
  split at hs
  case h_1 => cases hs
  case h_2 w₀ hl =>
    rw [loadWorker_of_matches h.hash hl, resetLastBlock_snapshotId] at hs
    split_ifs at hs with hne
    have hc := toOption_eq_some.mp hs
    rw [loadCheckpoint, resetLastBlock_snapshotId, if_neg (Nat.not_le.mpr h.recent)] at hc
    cases hc
    exact ⟨rfl, rfl, lt_of_le_of_ne h.behind hne⟩

theorem not_start (h : Consistent trie (chain, agg)) (hs : startWorker chain agg trie = none) :
    (runOnChainValidation chain agg trie).1 = trie := by
  simp only [startWorker] at hs
  split at hs
  case h_1 hl =>
    rw [State.nextNonce] at hl
    simp [runOnChainValidation, hl]
  case h_2 w₀ hl =>
    have hw := loadWorker_of_matches h.hash hl
    subst hw
    split_ifs at hs with hne
    · rw [State.nextNonce] at hl hne
      simp [runOnChainValidation, hl, hne, resetLastBlock_stored]
    · rw [loadCheckpoint, resetLastBlock_snapshotId, if_neg (Nat.not_le.mpr h.recent)] at hs
      cases hs

theorem run_of_start (h : Consistent trie (chain, agg))
    (hs : startWorker chain agg trie = some (w, last)) : Identified chain agg trie ∧
    (processedBy chain agg trie).map (·.nonce) = List.range' (trie.loadStateInfo.snapshotId + 1)
      (processedBy chain agg trie).length ∧
    (runOnChainValidation chain agg trie).1.loadStateInfo.snapshotId =
      trie.loadStateInfo.snapshotId + (processedBy chain agg trie).length := by
  obtain ⟨hw, hlast, hlt⟩ := h.start hs
  have hrs : processedBy chain agg trie = processed chain agg (batchNonces last chain.nextNonce) w := by
    simp only [processedBy, hs]
  rw [runOnChainValidation_of_start hs, ← hlast]
  have batch r (hr : r ∈ processedBy chain agg trie) : r.batch.snapshotId = r.nonce := by
    obtain ⟨hb, hv, _⟩ := mem_processed (hrs ▸ hr)
    exact h.served r.nonce r.batch hb hv
  have info r (hr : r ∈ processedBy chain agg trie) :
      r.after.stored.loadStateInfo.snapshotId = r.nonce := by
    obtain ⟨_, _, hid, hstored⟩ := mem_processed (hrs ▸ hr)
    rw [hstored, ← batch r hr, ← hid]
    rfl
  have nonces : (processedBy chain agg trie).map (·.nonce) =
      range' (last + 1) (processedBy chain agg trie).length := by
    obtain ⟨_, ht⟩ := processed_nonces chain agg (batchNonces last chain.nextNonce) w
    rw [← hrs, batchNonces_eq hlt] at ht
    obtain ⟨k, _, hk, _⟩ := range'_eq_append_iff.mp ht.symm
    have hlen := congrArg length hk
    rw [length_map, length_range'] at hlen
    rw [hk, hlen]
  have hstored : w.stored.loadStateInfo.snapshotId = last := by
    rw [hw, resetLastBlock_stored, hlast]
  have final := lastWorker_snapshotId hstored nonces info
  have hrun := runOnChainValidation_of_start hs
  cases concluded chain agg (range' (last + 1) (chain.nextNonce - (last + 1))) w with
  | @signed r summary hp hn hid _ hc =>
    have hp := hrs.trans hp
    have hafter : lastWorker w (processedBy chain agg trie) = r.after := by
      rw [hp, lastWorker, foldl_append]
      rfl
    rw [hafter] at final
    refine ⟨⟨batch, info, fun summary' he => ⟨r, by simp [hp], ?_, by rw [hrun, hc]⟩⟩, nonces, ?_⟩
    · rw [hrun, hc] at he
      cases he
      rw [hid, hn]
    · rw [hc]
      exact final
  | idle hp hn hc =>
    have hp := hrs.trans hp
    rw [← hp] at hn hc
    refine ⟨⟨batch, info, fun summary he => ?_⟩, nonces, ?_⟩
    · rw [hrun, hc] at he
      cases he
    · have hlen := congrArg length hn
      rw [length_map, length_range'] at hlen
      rw [hc, hlen]
      show chain.nextNonce - 1 = last + (chain.nextNonce - (last + 1))
      omega
  | stopped hp hne hc =>
    have hp := hrs.trans hp
    rw [← hp] at hc
    refine ⟨⟨batch, info, fun summary he => ?_⟩, nonces, by rw [hc]; exact final⟩
    rw [hrun, hc] at he
    exact absurd he (hne summary)

theorem run (h : Consistent trie (chain, agg)) : Identified chain agg trie ∧
    (processedBy chain agg trie).map (·.nonce) = List.range' (trie.loadStateInfo.snapshotId + 1)
      (processedBy chain agg trie).length ∧
    (runOnChainValidation chain agg trie).1.loadStateInfo.snapshotId =
      trie.loadStateInfo.snapshotId + (processedBy chain agg trie).length := by
  cases hs : startWorker chain agg trie with
  | some start => exact h.run_of_start hs
  | none =>
    have hp : processedBy chain agg trie = [] := by simp only [processedBy, hs]
    refine ⟨⟨by simp [hp], by simp [hp], fun summary he => ?_⟩, by simp [hp], by simp [hp, h.not_start hs]⟩
    exact absurd he (runOnChainValidation_of_not_start hs summary)

end Consistent

-- The runs of the worker, one after another. Each of them may see another state of the chain and
-- another aggregator.
def runWorker (trie : Trie Acc)
    (i : State Acc Auth W cfg × Aggregator Acc Sign) :
    Option (Trie Acc) :=
  some (runOnChainValidation i.1 i.2 trie).1

-- In every sequence of runs which are consistent, all batches are identified by their nonces, and the
-- nonces that are processed are 1, 2, 3 and so on, up to the one that is stored in the end.
theorem batches_identified
    (is : List (State Acc Auth W cfg × Aggregator Acc Sign))
    (h : Run.Along runWorker Consistent (.empty : Trie Acc) is) :
    Run.Along runWorker (fun trie i => Identified i.1 i.2 trie) (.empty : Trie Acc) is ∧
    ((Run.trace runWorker (.empty : Trie Acc) is).flatMap fun e =>
      (processedBy e.2.1 e.2.2 e.1).map (·.nonce)) =
      List.range' 1 (Run.run runWorker (.empty : Trie Acc) is).loadStateInfo.snapshotId := by
  refine ⟨fun e he => (h e he).run.1, ?_⟩
  refine h.induction (motive := fun is trie =>
    ((Run.trace runWorker (.empty : Trie Acc) is).flatMap fun e =>
      (processedBy e.2.1 e.2.2 e.1).map (·.nonce)) =
      range' 1 trie.loadStateInfo.snapshotId) rfl fun is i h hi => ?_
  obtain ⟨_, hn, hid⟩ := (h.last).run
  have he : Run.exec runWorker (Run.run runWorker .empty is) i =
      (runOnChainValidation i.1 i.2 (Run.run runWorker .empty is)).1 := rfl
  rw [Run.trace_append, flatMap_append, hi, he, hid]
  simp only [Run.trace_cons, Run.trace_nil, flatMap_cons, flatMap_nil, append_nil]
  rw [hn, Nat.add_comm _ 1, range'_append_1]

end Identity

end Batches

namespace Mock

attribute [local instance] Decimal.HalfEven.arith percent

def exampleServed (n : ℕ) : Option (UserActionBatch Account Sig) :=
  if n = 1 then some (batch 1 [1]) else if n = 2 then some (batch 2 [5]) else none

def exampleChain : State Account ℕ World config :=
  { opened with snapshotNonce := 1 }

def exampleStored : Trie Account where
  state := .empty
  stateInfo := some { lastBlock := 1, stid := 1, snapshotId := 1 }

def exampleRuns : List (State Account ℕ World config × Aggregator Account Sig) :=
  [(opened, ⟨importsOne, none⟩), (opened, ⟨importsOne, none⟩)]

theorem batches_identified_once :
    (Run.trace runWorker .empty exampleRuns).flatMap (fun e =>
      (processedBy e.2.1 e.2.2 e.1).map (·.nonce)) = [1] ∧
    Run.Along runWorker (fun trie i => Identified i.1 i.2 trie) .empty exampleRuns := by
  have hserved n b : importsOne n = some b → b.snapshotId = n := by
    simp only [importsOne]
    split_ifs with hn
    · rintro ⟨⟩
      exact hn.symm
    · intro hb
      cases hb
  refine ⟨by decide +kernel, (batches_identified exampleRuns fun e he => ?_).1⟩
  simp only [exampleRuns, Run.trace_cons, Run.trace_nil, mem_cons, not_mem_nil, or_false] at he
  rcases he with rfl | rfl
  all_goals
    exact {
      behind := by decide +kernel
      hash   := fun _ h => by cases h
      recent := by decide +kernel
      served := fun n b hb _ => hserved n b hb }

-- The aggregator serves another batch of the operator for the first nonce.
def servesSeventh (n : ℕ) : Option (UserActionBatch Account Sig) :=
  if n = 1 then some (batch 7 []) else none

-- The worker processes it, and stores its number, which is not the one that it signs.
theorem seventh_batch_processed :
    ¬∀ is : List (State Account ℕ World config × Aggregator Account Sig),
      Run.Along runWorker (fun trie i => Identified i.1 i.2 trie) .empty is := by
  intro h
  have hi := h [(opened, ⟨servesSeventh, none⟩)] _ mem_cons_self
  have hp : (processedBy opened ⟨servesSeventh, none⟩ .empty).map
      (fun r => (r.nonce, r.batch.snapshotId)) = [(1, 7)] := by decide +kernel
  obtain ⟨r, hr, he⟩ := mem_map.mp (hp ▸ mem_singleton_self _)
  have hid := hi.batch r hr
  simp only [Prod.mk.injEq] at he
  omega

end Mock

end Ocex
