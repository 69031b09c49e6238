import PolkadexModel.Ocex.Theorems.Batches
import PolkadexModel.Ocex.Theorems.ExactlyOnce

open List

namespace Ocex

variable {Acc Auth AuthSign Sign W : Type} [Ord Acc] {cfg : Config}

section Stability

variable [OperatorKey Acc Sign] {batch : UserActionBatch Acc Sign}
  {s s' t : State Acc Auth W cfg}

-- The call does not change what was read for a batch.
def Keeps (batch : UserActionBatch Acc Sign) (s : State Acc Auth W cfg) :
    Call Acc Auth AuthSign → Prop
  | .submitSnapshot summary _ =>
    ∀ blk ∈ batch.imports, blk ≤ summary.lastProcessedBlk → s.ingressMessages blk = default
  | .updateTradingPair base quote _ _ _ _ => ⟨base, quote⟩ ∉ batch.pairs
  | .allowlistToken token | .removeAllowlistedToken token => ∀ fees ∈ batch.fees, token ∉ fees
  | .whitelistOrderbookOperator key => OperatorKey.verify batch key
  | _ => True

-- The batch was validated with this state of the chain, after the blocks that it imports.
structure Validated (batch : UserActionBatch Acc Sign)
    (s : State Acc Auth W cfg) : Prop where
  closed : ∀ blk ∈ batch.imports, blk < s.currentBlockNumber
  registered : ∀ pair ∈ batch.pairs, s.tradingPairs pair ≠ none
  signed : verifyBatchSignature s batch

namespace Agree

theorem of_eq (hi : ∀ blk ∈ batch.imports, s'.ingressMessages blk = s.ingressMessages blk)
    (hp : s'.tradingPairs = s.tradingPairs) (ha : s'.allowlistedToken = s.allowlistedToken)
    (hk : s'.orderbookOperatorPublicKey = s.orderbookOperatorPublicKey) : Agree batch s s' :=
  ⟨hi, fun _ _ => by rw [hp], fun _ _ _ _ => by rw [ha], by simp only [verifyBatchSignature, hk]⟩

theorem setPair {config : TradingPairConfig} (h : ⟨base, quote⟩ ∈ batch.pairs →
      (s.tradingPairs ⟨base, quote⟩).map TradingPairConfig.limits = some config.limits) :
    Agree batch s (s.setPair base quote config) := by
  refine ⟨fun _ _ => rfl, fun pair hp => ?_, fun _ _ _ _ => .rfl, rfl⟩
  by_cases he : pair = ⟨base, quote⟩
  · subst he
    simp only [State.setPair, Function.update_self, Option.map_some, h hp]
  · simp only [State.setPair, Function.update_of_ne he]

theorem of_sets (hv : Validated batch s) (hk : Keeps batch s c) (hs : s.Sets t c) : Agree batch s t := by
  cases c with
  | closeTradingPair | openTradingPair =>
    obtain ⟨config, hc, ht⟩ := hs
    exact ht ▸ .setPair fun _ => by rw [hc]; rfl
  | registerTradingPair =>
    obtain ⟨hn, config, ht⟩ := hs
    exact ht ▸ .setPair fun hp => absurd hn (hv.registered _ hp)
  | updateTradingPair =>
    obtain ⟨config, ht⟩ := hs
    exact ht ▸ .setPair fun hp => absurd hp hk
  | allowlistToken token =>
    have hs : t = { s with allowlistedToken := s.allowlistedToken.insert token } := hs
    subst hs
    refine ⟨fun _ _ => rfl, fun _ _ => rfl, fun fees hf asset ha => ?_, rfl⟩
    have hne : token ≠ asset := fun he => hk fees hf (he ▸ ha)
    simp [Std.TreeSet.mem_insert, hne]
  | removeAllowlistedToken token =>
    have hs : t = { s with allowlistedToken := s.allowlistedToken.erase token } := hs
    subst hs
    refine ⟨fun _ _ => rfl, fun _ _ => rfl, fun fees hf asset ha => ?_, rfl⟩
    have hne : token ≠ asset := fun he => hk fees hf (he ▸ ha)
    simp [Std.TreeSet.mem_erase, hne]
  | whitelistOrderbookOperator key =>
    have hs : t = { s with orderbookOperatorPublicKey := some key } := hs
    subst hs
    exact ⟨fun _ _ => rfl, fun _ _ => rfl, fun _ _ _ _ => .rfl, hk.trans hv.signed.symm⟩
  | claimWithdraw | submitSnapshot => exact hs.elim
  | setSnapshot id =>
    have hs : t = { s with snapshotNonce := id } := hs
    exact hs ▸ .of_eq (fun _ _ => rfl) rfl rfl rfl
  | forceSubmitSnapshot summary =>
    have hs : t = { s with snapshotNonce := _, snapshots := _ } := hs
    exact hs ▸ .of_eq (fun _ _ => rfl) rfl rfl rfl
  | newSession authorities queued =>
    have hs : t = s.onNewSession authorities queued := hs
    exact hs ▸ .of_eq (fun _ _ => rfl) rfl rfl rfl
  | nextBlock =>
    have hs : t = { s with currentBlockNumber := s.currentBlockNumber + 1 } := hs
    exact hs ▸ .of_eq (fun _ _ => rfl) rfl rfl rfl
  | _ =>
    have hs : t = s := hs
    exact hs ▸ .refl _

end Agree

variable [DecidableEq Acc] [PalletAccounts Acc] [Assets Acc W]
  [CrossChainGadget Acc W] [CrowdSourceLiquidityMining Acc W] [Percent]
  [Authority Acc Auth AuthSign] [Decimal.Arith]
  [Std.TransOrd Acc] [Std.LawfulEqOrd Acc]
  {c : Call Acc Auth AuthSign}

omit [Std.TransOrd Acc] [Std.LawfulEqOrd Acc] in
theorem agree_of_nextBlock (hc : ∀ blk ∈ batch.imports, blk ≤ s.currentBlockNumber)
    (h : dispatch s (.nextBlock : Call Acc Auth AuthSign) = .ok s') :
    Agree batch s s' := by
  obtain ⟨t, ht, hf⟩ := State.sets_of_dispatch (by simp) (by simp) h
  have ht : t = { s with currentBlockNumber := s.currentBlockNumber + 1 } := ht
  subst ht
  exact .of_eq (fun blk hb => hf.ingress blk (Nat.lt_succ_of_le (hc blk hb)).ne)
    (congrArg View.tradingPairs hf.view) (congrArg View.allowlistedToken hf.view)
    (congrArg View.orderbookOperatorPublicKey hf.view)

theorem agree_of_dispatch (hv : Validated batch s) (hk : Keeps batch s c)
    (h : dispatch s c = .ok s') : Agree batch s s' := by
  have hne : ∀ blk ∈ batch.imports, blk ≠ s.currentBlockNumber := fun blk hb => (hv.closed blk hb).ne
  cases c with
  | submitSnapshot summary signatures =>
    simp only [dispatch, bind_eq_ok] at h
    obtain ⟨_, _, h⟩ := h
    obtain ⟨_, _, _, hview, hi⟩ := State.submitSnapshot_eq_ok h
    refine .of_eq (fun blk hb => ?_) (congrArg View.tradingPairs hview)
      (congrArg View.allowlistedToken hview) (congrArg View.orderbookOperatorPublicKey hview)
    rw [hi blk (hne blk hb)]
    split_ifs with hle
    · exact (hk blk hb hle).symm
    · rfl
  | claimWithdraw id account =>
    obtain ⟨_, _, _, _, _, _, _, hview, hi⟩ := State.claimWithdraw_eq_ok h
    exact .of_eq (fun blk hb => hi blk (hne blk hb)) (congrArg View.tradingPairs hview)
      (congrArg View.allowlistedToken hview) (congrArg View.orderbookOperatorPublicKey hview)
  | _ =>
    obtain ⟨t, ht, hf⟩ := State.sets_of_dispatch (by simp) (by simp) h
    have hlt : ∀ blk ∈ batch.imports, blk < t.currentBlockNumber :=
      fun blk hb => (hv.closed blk hb).trans_le ht.currentBlockNumber_le
    exact (Agree.of_sets hv hk ht).trans (.of_eq (fun blk hb => hf.ingress blk (hlt blk hb).ne)
      (congrArg View.tradingPairs hf.view) (congrArg View.allowlistedToken hf.view)
      (congrArg View.orderbookOperatorPublicKey hf.view))

omit [OperatorKey Acc Sign] in
theorem currentBlockNumber_le_of_dispatch (h : dispatch s c = .ok s') :
    s.currentBlockNumber ≤ s'.currentBlockNumber := by
  cases c with
  | submitSnapshot summary signatures =>
    simp only [dispatch, bind_eq_ok] at h
    obtain ⟨_, _, h⟩ := h
    obtain ⟨_, _, _, hview, _⟩ := State.submitSnapshot_eq_ok h
    exact (congrArg View.currentBlockNumber hview).ge
  | claimWithdraw id account =>
    obtain ⟨_, _, _, _, _, _, _, hview, _⟩ := State.claimWithdraw_eq_ok h
    exact (congrArg View.currentBlockNumber hview).ge
  | _ =>
    obtain ⟨t, ht, hf⟩ := State.sets_of_dispatch (by simp) (by simp) h
    exact ht.currentBlockNumber_le.trans hf.currentBlockNumber.ge

omit [OperatorKey Acc Sign] [Std.TransOrd Acc] [Std.LawfulEqOrd Acc] in
theorem snapshots_of_dispatch (hsubmit : ∀ summary signatures, c ≠ .submitSnapshot summary signatures)
    (hset : ∀ id, c ≠ .setSnapshot id) (hforce : ∀ summary, c ≠ .forceSubmitSnapshot summary)
    (h : dispatch s c = .ok s') :
    s'.snapshotNonce = s.snapshotNonce ∧ s'.snapshots = s.snapshots := by
  cases c with
  | submitSnapshot summary signatures => exact absurd rfl (hsubmit summary signatures)
  | setSnapshot id => exact absurd rfl (hset id)
  | forceSubmitSnapshot summary => exact absurd rfl (hforce summary)
  | claimWithdraw id account =>
    obtain ⟨_, _, _, _, _, _, _, hview, _⟩ := State.claimWithdraw_eq_ok h
    have hl : s'.ledger.snapshotNonce = s.ledger.snapshotNonce :=
      congrArg (fun view => view.toLedger.snapshotNonce) hview
    exact ⟨hl, congrArg View.snapshots hview⟩
  | _ =>
    obtain ⟨t, ht, hf⟩ := State.sets_of_dispatch (by simp) (by simp) h
    obtain ⟨hl, hs⟩ := ht.history (by simp) (by simp)
    have hl' : s'.ledger = t.ledger := congrArg View.toLedger hf.view
    exact ⟨congrArg Ledger.snapshotNonce (hl'.trans hl), (congrArg View.snapshots hf.view).trans hs⟩

end Stability

section Loop

variable [DecidableEq Acc] [PalletAccounts Acc] [Decimal.Arith]
  [Verify Acc Sign] [FromText] [OperatorKey Acc Sign]
  {chain chain' : State Acc Auth W cfg}
  {batches : ℕ → Option (UserActionBatch Acc Sign)} {w w' : Worker Acc}

theorem syncBatches_append (l l' : List ℕ) (w : Worker Acc) :
    syncBatches chain batches (l ++ l') w =
      match syncBatches chain batches l w with
      | (w', none) => syncBatches chain batches l' w'
      | result     => result := by
  induction l generalizing w with
  | nil => rfl
  | cons n l hi =>
    simp only [cons_append, syncBatches]
    cases batches n with
    | none => rfl
    | some batch =>
      dsimp only
      split_ifs
      · cases h : processBatch chain w.state w.info batch with
        | ok b => exact hi _
        | error e => cases e <;> rfl
      · rfl

theorem syncBatches_singleton : syncBatches chain batches [n] w = (w', none) ↔
    ∃ batch b, batches n = some batch ∧ verifyBatchSignature chain batch ∧
      processBatch chain w.state w.info batch = .ok b ∧ w' = commitBatch b batch := by
  simp only [syncBatches]
  cases batches n with
  | none => simp
  | some batch =>
    cases hv : verifyBatchSignature chain batch with
    | false => simp [hv]
    | true =>
      cases h : processBatch chain w.state w.info batch with
      | ok b =>
        simp only [hv, h, if_true, Prod.mk.injEq, and_true]
        constructor
        · intro hw
          exact ⟨batch, b, rfl, hv, h, hw.symm⟩
        · rintro ⟨batch', b', hb, _, hp, hw⟩
          cases hb
          rw [h] at hp
          cases hp
          exact hw.symm
      | error e => cases e <;> simp [hv, h]

theorem syncBatches_congr
    (h : ∀ n ∈ l, ∀ batch, batches n = some batch → Agree batch chain chain') (w : Worker Acc) :
    syncBatches chain' batches l w = syncBatches chain batches l w := by
  induction l generalizing w with
  | nil => rfl
  | cons n l hi =>
    simp only [syncBatches]
    cases hb : batches n with
    | none => rfl
    | some batch =>
      have ha := h n mem_cons_self batch hb
      have hi := hi fun n hn => h n (mem_cons_of_mem _ hn)
      simp only [ha.operator, ha.processBatch, hi]

def Worker.fresh : Worker Acc where
  stored := .empty
  state := .empty
  info := {}

-- The worker after it has caught up with the first `k` batches, at a state of the chain.
def CaughtUp (chain : State Acc Auth W cfg)
    (batches : ℕ → Option (UserActionBatch Acc Sign)) (k : ℕ) (w : Worker Acc) :
    Prop :=
  syncBatches chain batches (List.range' 1 k) .fresh = (w, none)

namespace CaughtUp

variable {k : ℕ}

theorem zero : CaughtUp chain batches 0 w ↔ w = .fresh := by
  simp [CaughtUp, syncBatches, eq_comm]

theorem succ : CaughtUp chain batches (k + 1) w ↔ ∃ u batch b, CaughtUp chain batches k u ∧
    batches (k + 1) = some batch ∧ verifyBatchSignature chain batch ∧
    processBatch chain u.state u.info batch = .ok b ∧ w = commitBatch b batch := by
  have hr : range' 1 (k + 1) = range' 1 k ++ [k + 1] := by
    rw [range'_1_concat, Nat.add_comm 1 k]
  rw [CaughtUp, hr, syncBatches_append]
  constructor
  · intro h
    cases hk : syncBatches chain batches (range' 1 k) .fresh with
    | mk u result =>
      cases result with
      | none =>
        rw [hk] at h
        obtain ⟨batch, b, hb⟩ := syncBatches_singleton.mp h
        exact ⟨u, batch, b, hk, hb⟩
      | some result => simp [hk] at h
  · rintro ⟨u, batch, b, hu, hb⟩
    rw [show syncBatches chain batches (range' 1 k) .fresh = (u, none) from hu]
    exact syncBatches_singleton.mpr ⟨batch, b, hb⟩

theorem stored (h : CaughtUp chain batches k w) (hk : 0 < k) : w.stored = ⟨w.state, some w.info⟩ := by
  cases k with
  | zero => exact absurd hk (Nat.lt_irrefl 0)
  | succ k =>
    obtain ⟨_, _, _, _, _, _, _, hw⟩ := succ.mp h
    rw [hw]
    rfl

theorem batch (h : CaughtUp chain batches k w) (hn : n ∈ List.range' 1 k) :
    ∃ batch, batches n = some batch ∧ verifyBatchSignature chain batch ∧
      ∃ s info b, processBatch chain s info batch = .ok b := by
  induction k generalizing w with
  | zero => simp at hn
  | succ k hi =>
    obtain ⟨u, batch, b, hu, hb, hv, hp, _⟩ := succ.mp h
    rw [range'_1_concat, mem_append, mem_singleton, Nat.add_comm] at hn
    cases hn with
    | inl hn => exact hi hu hn
    | inr hn => exact ⟨batch, hn ▸ hb, hv, u.state, u.info, b, hp⟩

theorem congr (h : ∀ n ∈ List.range' 1 k, ∀ batch, batches n = some batch → Agree batch chain chain') :
    CaughtUp chain' batches k w ↔ CaughtUp chain batches k w := by
  rw [CaughtUp, CaughtUp, syncBatches_congr h]

end CaughtUp

omit [OperatorKey Acc Sign] in
theorem registered_of_processBatch {batch : UserActionBatch Acc Sign}
    (h : processBatch chain s info batch = .ok b) (hp : pair ∈ batch.pairs) :
    chain.tradingPairs pair ≠ none := by
  simp only [processBatch, bind_eq_ok] at h
  obtain ⟨_, _, h⟩ := h
  obtain ⟨action, ha, hp⟩ := mem_flatMap.mp hp
  cases action with
  | trade ts =>
    obtain ⟨t, ht, hpair⟩ := mem_map.mp hp
    obtain ⟨_, _, ho⟩ := exists_occurs h ha (mem_map_of_mem ht)
    cases ho with
    | trade _ _ _ hs =>
      intro hn
      simp [settleTrade, hpair, hn] at hs
  | _ => simp [UserActions.pairs] at hp

end Loop

section Worker

variable [DecidableEq Acc] [PalletAccounts Acc] [Decimal.Arith]
  [Verify Acc Sign] [FromText] [OperatorKey Acc Sign] [TrieRoot Acc]
  {chain : State Acc Auth W cfg} {agg : Aggregator Acc Sign}
  {trie : Trie Acc}

theorem runOnChainValidation_eq {w : Worker Acc} (hn : chain.snapshotNonce < Word.max 64)
    (hl : loadWorker chain trie (chain.snapshotNonce + 1) = .ok w) (hr : resetLastBlock w = w)
    (hi : w.info.snapshotId ≠ chain.snapshotNonce + 1)
    (hc : chain.snapshotNonce + 1 - w.info.snapshotId < checkpointBlocks) :
    runOnChainValidation chain agg trie =
      match syncBatches chain agg.userActionBatch
        (List.range' (w.info.snapshotId + 1) (chain.snapshotNonce - w.info.snapshotId)) w with
      | (w, some result) => (w.stored, result)
      | (w, none) => processNext chain agg.userActionBatch (chain.snapshotNonce + 1) w := by
  have hc : loadCheckpoint chain agg (chain.snapshotNonce + 1) w = .ok (w, w.info.snapshotId) := by
    rw [loadCheckpoint, if_neg (Nat.not_le.mpr hc)]
  cases hs : syncBatches chain agg.userActionBatch
      (range' (w.info.snapshotId + 1) (chain.snapshotNonce - w.info.snapshotId)) w with
  | mk w' result =>
    cases result
    all_goals
      simp only [runOnChainValidation, Word.lt_saturatingAdd_one hn, hl, hr, hi, if_false, hc,
        Nat.add_sub_add_right, hs]

theorem runOnChainValidation_empty (hn : chain.snapshotNonce + 1 < checkpointBlocks)
    (hz : chain.snapshots 0 = none) : runOnChainValidation chain agg .empty =
      match syncBatches chain agg.userActionBatch (List.range' 1 chain.snapshotNonce) .fresh with
      | (w, some result) => (w.stored, result)
      | (w, none) => processNext chain agg.userActionBatch (chain.snapshotNonce + 1) w := by
  have hl : loadWorker chain .empty (chain.snapshotNonce + 1) = .ok .fresh := by
    simp [loadWorker, Trie.loadStateInfo, Trie.empty, Worker.fresh, hz]
  have hmax : checkpointBlocks ≤ Word.max 64 := by decide
  exact runOnChainValidation_eq ((Nat.lt_of_succ_lt hn).trans_le hmax) hl rfl (Nat.succ_ne_zero _).symm hn

theorem runOnChainValidation_next (hn : chain.snapshotNonce < Word.max 64)
    (hi : trie.loadStateInfo.snapshotId = chain.snapshotNonce)
    (hb : chain.snapshotNonce = 0 → trie.loadStateInfo.lastBlock = 0)
    (hs : ∀ summary, chain.snapshots chain.snapshotNonce = some summary →
      summary.stateHash = TrieRoot.root trie)
    (hz : chain.snapshots chain.snapshotNonce = none → chain.snapshotNonce = 0) :
    runOnChainValidation chain agg trie =
      processNext chain agg.userActionBatch (chain.snapshotNonce + 1)
        ⟨trie, trie.state, trie.loadStateInfo⟩ := by
  have hl : loadWorker chain trie (chain.snapshotNonce + 1) =
      .ok ⟨trie, trie.state, trie.loadStateInfo⟩ := by
    simp only [loadWorker, hi]
    cases h : chain.snapshots chain.snapshotNonce with
    | none => simp [hz h]
    | some summary => simp [hs summary h]
  have hr : resetLastBlock ⟨trie, trie.state, trie.loadStateInfo⟩ =
      ⟨trie, trie.state, trie.loadStateInfo⟩ := by
    simp only [resetLastBlock, hi]
    split_ifs with h
    · have hb := hb h
      cases hinfo : trie.loadStateInfo
      simp_all
    · rfl
  rw [runOnChainValidation_eq hn hl hr (by simp [hi]) (by simp [hi, checkpointBlocks])]
  simp [hi, syncBatches]

theorem runOnChainValidation_ahead (hn : chain.snapshotNonce < Word.max 64)
    (hi : trie.loadStateInfo.snapshotId = chain.snapshotNonce + 1)
    (hs : chain.snapshots (chain.snapshotNonce + 1) = none) :
    (runOnChainValidation chain agg trie).1 = trie := by
  have hl : loadWorker chain trie (chain.snapshotNonce + 1) =
      .ok ⟨trie, trie.state, trie.loadStateInfo⟩ := by
    simp [loadWorker, hi, hs]
  have hr : resetLastBlock ⟨trie, trie.state, trie.loadStateInfo⟩ =
      ⟨trie, trie.state, trie.loadStateInfo⟩ := by
    simp [resetLastBlock, hi]
  simp only [runOnChainValidation, Word.lt_saturatingAdd_one hn, hl, hr, hi, if_true]

end Worker

end Ocex
