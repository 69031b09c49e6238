import PolkadexModel.Ocex.Theorems.CatchUp

open Function

namespace Ocex

variable {Acc Auth AuthSign Sign W : Type} [Ord Acc] {cfg : Config}

-- The chain, and the contents of a validator that has followed it from the beginning.
structure Replica (Acc Auth W : Type) [Ord Acc] (cfg : Config) where
  chain : State Acc Auth W cfg
  live : Trie Acc

inductive Replica.Event (Acc Auth AuthSign Sign : Type) [Ord Acc]
  | call (c : Call Acc Auth AuthSign)
  -- The validator runs its worker at the end of the block.
  | endBlock (agg : Aggregator Acc Sign)

section Runs

variable [DecidableEq Acc] [PalletAccounts Acc] [Assets Acc W]
  [CrossChainGadget Acc W] [CrowdSourceLiquidityMining Acc W] [Percent]
  [Authority Acc Auth AuthSign] [Decimal.Arith]
  [Verify Acc Sign] [FromText] [OperatorKey Acc Sign] [TrieRoot Acc]

namespace Replica

def step (r : Replica Acc Auth W cfg) :
    Event Acc Auth AuthSign Sign →
    Option (Replica Acc Auth W cfg)
  | .call c => (Ocex.step r.chain c).map fun chain => { r with chain := chain }
  | .endBlock agg =>
    (Ocex.step r.chain (.nextBlock : Call Acc Auth AuthSign)).map fun chain =>
      ⟨chain, (runOnChainValidation r.chain agg r.live).1⟩

def processed (r : Replica Acc Auth W cfg) : ℕ :=
  r.live.loadStateInfo.snapshotId

-- A snapshot is accepted after the validator has processed its batch, and with the same result.
-- Governance does not interfere with the snapshots.
def Orderly (r : Replica Acc Auth W cfg) :
    Call Acc Auth AuthSign → Prop
  | .submitSnapshot summary _ =>
    r.processed = summary.snapshotId ∧ summary.stateHash = TrieRoot.root r.live
  | .setSnapshot _ | .forceSubmitSnapshot _ => False
  | _ => True

-- An accepted call does not change what was read for the batches so far, and a batch does not import
-- blocks of the future.
def Faithful (batches : ℕ → Option (UserActionBatch Acc Sign))
    (r : Replica Acc Auth W cfg) :
    Event Acc Auth AuthSign Sign → Prop
  | .call c => (Ocex.step r.chain c).isSome → r.Orderly c ∧
      ∀ n ∈ List.range' 1 r.processed, ∀ batch, batches n = some batch → Keeps batch r.chain c
  | .endBlock agg => r.chain.snapshotNonce < Word.max 64 ∧
      ∀ n batch, agg.userActionBatch n = some batch → batches n = some batch ∧
        ∀ blk ∈ batch.imports, blk ≤ r.chain.currentBlockNumber

-- The validator has the contents of the worker `w`, which catches up now. The blocks of the batches
-- so far are below `bound`.
structure InSync (batches : ℕ → Option (UserActionBatch Acc Sign))
    (r : Replica Acc Auth W cfg) (bound : ℕ) (w : Worker Acc) : Prop where
  caughtUp : CaughtUp r.chain batches r.processed w
  state : r.live.state = w.state
  info : r.live.loadStateInfo = w.info
  stored : 0 < r.processed → r.live = w.stored
  closed : ∀ n ∈ List.range' 1 r.processed, ∀ batch, batches n = some batch →
    ∀ blk ∈ batch.imports, blk < bound
  nonce : r.processed = r.chain.snapshotNonce ∨ r.processed = r.chain.snapshotNonce + 1
  root : r.processed = r.chain.snapshotNonce → 0 < r.processed → ∃ summary,
    r.chain.snapshots r.processed = some summary ∧ summary.stateHash = TrieRoot.root r.live
  future : ∀ n, r.chain.snapshotNonce < n → r.chain.snapshots n = none
  zero : r.chain.snapshots 0 = none

namespace InSync

variable {batches : ℕ → Option (UserActionBatch Acc Sign)}
  {r : Replica Acc Auth W cfg} {s' : State Acc Auth W cfg}
  {w : Worker Acc} {bound : ℕ}

section

omit [Assets Acc W] [CrossChainGadget Acc W] [CrowdSourceLiquidityMining Acc W]
  [Percent]

theorem validated (h : InSync batches r r.chain.currentBlockNumber w) (hn : n ∈ List.range' 1 r.processed)
    (hb : batches n = some batch) : Validated batch r.chain := by
  obtain ⟨batch', hb', hv, _, _, _, hp⟩ := h.caughtUp.batch hn
  cases hb.symm.trans hb'
  exact ⟨h.closed n hn batch hb, fun _ => registered_of_processBatch hp, hv⟩

theorem mono (h : InSync batches r bound w) (hb : bound ≤ bound') : InSync batches r bound' w :=
  { h with closed := fun n hn batch hn' blk hblk => (h.closed n hn batch hn' blk hblk).trans_le hb }

-- The contents may differ in an entry for the default state info, as long as there are no batches.
theorem live (h : InSync batches r bound w)
    (hs : trie.state = r.live.state) (hi : trie.loadStateInfo = r.live.loadStateInfo)
    (hl : 0 < r.processed → trie = r.live) : InSync batches { r with live := trie } bound w := by
  have hp : processed { r with live := trie } = r.processed := congrArg StateInfo.snapshotId hi
  refine ⟨?_, hs.trans h.state, hi.trans h.info, fun hk => ?_, ?_, ?_, fun hn hk => ?_, h.future, h.zero⟩
  · exact hp ▸ h.caughtUp
  · rw [hp] at hk
    exact (hl hk).trans (h.stored hk)
  · exact hp ▸ h.closed
  · exact hp ▸ h.nonce
  · rw [hp] at hn hk ⊢
    rw [hl hk]
    exact h.root hn hk

theorem chain (h : InSync batches r bound w) (hb : bound ≤ bound')
    (ha : ∀ n ∈ List.range' 1 r.processed, ∀ batch, batches n = some batch → Agree batch r.chain s')
    (hn : s'.snapshotNonce = r.chain.snapshotNonce) (hs : s'.snapshots = r.chain.snapshots) :
    InSync batches { r with chain := s' } bound' w  where
  caughtUp := (CaughtUp.congr ha).mpr h.caughtUp
  state := h.state
  info := h.info
  stored := h.stored
  closed := (h.mono hb).closed
  nonce := by rw [hn]; exact h.nonce
  root := by rw [hn, hs]; exact h.root
  future := by rw [hn, hs]; exact h.future
  zero := by rw [hs]; exact h.zero

theorem runOnChainValidation_eq (h : InSync batches r bound w)
    (hmax : r.chain.snapshotNonce < Word.max 64) (hn : r.processed = r.chain.snapshotNonce)
    (agg : Aggregator Acc Sign) : runOnChainValidation r.chain agg r.live =
      processNext r.chain agg.userActionBatch (r.chain.snapshotNonce + 1)
        ⟨r.live, r.live.state, r.live.loadStateInfo⟩ := by
  apply runOnChainValidation_next hmax hn
  case hb =>
    intro hz
    have hw := h.caughtUp
    rw [hn, hz, CaughtUp.zero] at hw
    rw [h.info, hw]
    rfl
  case hs =>
    intro summary hs
    have hk : 0 < r.processed := by
      rw [hn, Nat.pos_iff_ne_zero]
      intro hz
      simp [hz, h.zero] at hs
    obtain ⟨summary', hs', hr⟩ := h.root hn hk
    rw [hn, hs] at hs'
    cases hs'
    exact hr
  case hz =>
    intro hs
    by_contra hz
    obtain ⟨summary, hs', _⟩ := h.root hn (hn ▸ Nat.pos_of_ne_zero hz)
    rw [hn, hs] at hs'
    cases hs'

theorem commitBatch (h : InSync batches r bound w) (hn : r.processed = r.chain.snapshotNonce)
    (hid : ∀ n batch, batches n = some batch → batch.snapshotId = n)
 (hb : batches (r.processed + 1) = some batch)
    (hi : ∀ blk ∈ batch.imports, blk < bound) (hv : verifyBatchSignature r.chain batch)
    (hp : processBatch r.chain r.live.state r.live.loadStateInfo batch = .ok b) :
    InSync batches { r with live := (Ocex.commitBatch b batch).stored } bound
      (Ocex.commitBatch b batch) := by
  have hk : processed { r with live := (Ocex.commitBatch b batch).stored } = r.processed + 1 :=
    hid _ _ hb
  refine ⟨?caughtUp, rfl, rfl, fun _ => rfl, ?closed, ?nonce, ?root, h.future, h.zero⟩
  case caughtUp =>
    rw [h.state, h.info] at hp
    rw [hk]
    exact CaughtUp.succ.mpr ⟨w, batch, b, h.caughtUp, hb, hv, hp, rfl⟩
  case closed =>
    rw [hk]
    intro n hr batch' hn' blk hblk
    rw [List.range'_1_concat, List.mem_append, List.mem_singleton, Nat.add_comm] at hr
    cases hr with
    | inl hr => exact h.closed n hr batch' hn' blk hblk
    | inr hr =>
      rw [hr, hb] at hn'
      cases hn'
      exact hi blk hblk
  case nonce =>
    rw [hk, hn]
    exact .inr rfl
  case root =>
    intro hn'
    rw [hk, hn] at hn'
    exact absurd hn' (Nat.succ_ne_self _)

theorem processNext (h : InSync batches r bound w) (hn : r.processed = r.chain.snapshotNonce)
    (hid : ∀ n batch, batches n = some batch → batch.snapshotId = n)
    {agg : Aggregator Acc Sign} (ha : ∀ n batch, agg.userActionBatch n = some batch →
      batches n = some batch ∧ ∀ blk ∈ batch.imports, blk < bound) :
    ∃ w', InSync batches { r with live := (Ocex.processNext r.chain agg.userActionBatch
      (r.chain.snapshotNonce + 1) ⟨r.live, r.live.state, r.live.loadStateInfo⟩).1 } bound w' := by
  cases hb : agg.userActionBatch (r.chain.snapshotNonce + 1) with
  | none =>
    have hinfo : { r.live.loadStateInfo with snapshotId := r.chain.snapshotNonce } =
        r.live.loadStateInfo := by rw [← hn]; rfl
    refine ⟨w, ?_⟩
    simp only [Ocex.processNext, hb, Nat.add_sub_cancel, hinfo]
    refine h.live rfl rfl fun hk => ?_
    rw [h.stored hk, h.caughtUp.stored hk]
    rfl
  | some batch =>
    obtain ⟨hb', hi⟩ := ha _ _ hb
    cases hv : verifyBatchSignature r.chain batch with
    | false =>
      refine ⟨w, ?_⟩
      simpa only [Ocex.processNext, hb, hv, Bool.false_eq_true, if_false] using h
    | true =>
      cases hp : processBatch r.chain r.live.state r.live.loadStateInfo batch with
      | error e =>
        refine ⟨w, ?_⟩
        simpa only [Ocex.processNext, hb, hv, hp, if_true] using h
      | ok b =>
        refine ⟨Ocex.commitBatch b batch, ?_⟩
        simp only [Ocex.processNext, hb, hv, hp, if_true]
        rw [← hn] at hb'
        exact h.commitBatch hn hid hb' hi hv hp

theorem work (h : InSync batches r r.chain.currentBlockNumber w)
    (hid : ∀ n batch, batches n = some batch → batch.snapshotId = n)
 (hmax : r.chain.snapshotNonce < Word.max 64) (ha : ∀ n batch, agg.userActionBatch n = some batch →
      batches n = some batch ∧ ∀ blk ∈ batch.imports, blk ≤ r.chain.currentBlockNumber) :
    ∃ w', InSync batches { r with live := (runOnChainValidation r.chain agg r.live).1 }
      (r.chain.currentBlockNumber + 1) w' := by
  have hs := h.mono (Nat.le_succ _)
  cases h.nonce with
  | inl hn =>
    rw [hs.runOnChainValidation_eq hmax hn]
    exact hs.processNext hn hid fun n batch hb => by
      obtain ⟨hb, hi⟩ := ha n batch hb
      exact ⟨hb, fun blk hblk => Nat.lt_succ_of_le (hi blk hblk)⟩
  | inr hn =>
    rw [runOnChainValidation_ahead hmax hn (h.future _ (Nat.lt_succ_self _))]
    exact ⟨w, hs⟩

end

variable [Std.TransOrd Acc] [Std.LawfulEqOrd Acc]

theorem submitSnapshot (h : InSync batches r r.chain.currentBlockNumber w)
    (ho : r.Orderly (.submitSnapshot summary signatures : Call Acc Auth AuthSign))
    (hk : ∀ n ∈ List.range' 1 r.processed, ∀ batch, batches n = some batch → Keeps batch r.chain
      (.submitSnapshot summary signatures : Call Acc Auth AuthSign))
    (hd : dispatch r.chain (.submitSnapshot summary signatures) = .ok s') :
    InSync batches { r with chain := s' } s'.currentBlockNumber w := by
  have ha n hn batch hb := agree_of_dispatch (h.validated hn hb) (hk n hn batch hb) hd
  have hle := currentBlockNumber_le_of_dispatch hd
  simp only [dispatch, bind_eq_ok] at hd
  obtain ⟨_, hvalid, hd⟩ := hd
  have hid := State.snapshotId_of_validateSnapshot hvalid
  obtain ⟨_, _, _, hview, _⟩ := State.submitSnapshot_eq_ok hd
  have hn : s'.snapshotNonce = summary.snapshotId :=
    congrArg (fun view => view.toLedger.snapshotNonce) hview
  have hs : s'.snapshots = update r.chain.snapshots summary.snapshotId (some summary) :=
    congrArg View.snapshots hview
  obtain ⟨hp, hroot⟩ := ho
  have hge : r.chain.snapshotNonce ≤ r.processed := by
    cases h.nonce with
    | inl hn => exact hn.ge
    | inr hn => exact (Nat.le_succ _).trans hn.ge
  refine ⟨(CaughtUp.congr ha).mpr h.caughtUp, h.state, h.info, h.stored, (h.mono hle).closed,
    .inl (hp.trans hn.symm), fun _ _ => ⟨summary, ?root, hroot⟩, fun n hlt => ?future, ?zero⟩
  case root =>
    change s'.snapshots r.processed = some summary
    rw [hs, hp, update_self]
  case future =>
    change s'.snapshotNonce < n at hlt
    change s'.snapshots n = none
    rw [hn] at hlt
    rw [hs, update_of_ne hlt.ne']
    exact h.future n (hge.trans_lt (hp ▸ hlt))
  case zero =>
    change s'.snapshots 0 = none
    have hne : summary.snapshotId ≠ 0 := by
      rw [← hid, Word.saturatingAdd]
      simp [Word.max]
    rw [hs, update_of_ne hne.symm]
    exact h.zero

theorem call (h : InSync batches r r.chain.currentBlockNumber w)
    {c : Call Acc Auth AuthSign} (ho : r.Orderly c)
    (hk : ∀ n ∈ List.range' 1 r.processed, ∀ batch, batches n = some batch → Keeps batch r.chain c)
    (hd : dispatch r.chain c = .ok s') : InSync batches { r with chain := s' } s'.currentBlockNumber w := by
  cases c with
  | submitSnapshot summary signatures => exact h.submitSnapshot ho hk hd
  | setSnapshot | forceSubmitSnapshot => exact ho.elim
  | _ =>
    obtain ⟨hn, hs⟩ := snapshots_of_dispatch (by simp) (by simp) (by simp) hd
    exact h.chain (currentBlockNumber_le_of_dispatch hd)
      (fun n hn batch hb => agree_of_dispatch (h.validated hn hb) (hk n hn batch hb) hd) hn hs

omit [Std.TransOrd Acc] [Std.LawfulEqOrd Acc] in
theorem nextBlock (h : InSync batches r (r.chain.currentBlockNumber + 1) w)
    (hd : dispatch r.chain (.nextBlock : Call Acc Auth AuthSign) = .ok s') :
    InSync batches { r with chain := s' } s'.currentBlockNumber w := by
  obtain ⟨hn, hs⟩ := snapshots_of_dispatch (by simp) (by simp) (by simp) hd
  obtain ⟨t, ht, hf⟩ := State.sets_of_dispatch (by simp) (by simp) hd
  have ht : t = { r.chain with currentBlockNumber := r.chain.currentBlockNumber + 1 } := ht
  subst ht
  refine h.chain hf.currentBlockNumber.ge (fun n hn batch hb => ?_) hn hs
  exact agree_of_nextBlock (fun blk hblk => Nat.le_of_lt_succ (h.closed n hn batch hb blk hblk)) hd

theorem step {e : Event Acc Auth AuthSign Sign}
    (hid : ∀ n batch, batches n = some batch → batch.snapshotId = n)
    (h : ∃ w, InSync batches r r.chain.currentBlockNumber w) (hf : Faithful batches r e)
    (hr : r.step e = some r') : ∃ w, InSync batches r' r'.chain.currentBlockNumber w := by
  obtain ⟨w, h⟩ := h
  cases e with
  | call c =>
    simp only [Replica.step, Option.map_eq_some_iff] at hr
    obtain ⟨s', hs, hr⟩ := hr
    obtain ⟨ho, hk⟩ := hf (Option.isSome_of_eq_some hs)
    subst hr
    exact ⟨w, h.call ho hk (toOption_eq_some.mp hs)⟩
  | endBlock agg =>
    simp only [Replica.step, Option.map_eq_some_iff] at hr
    obtain ⟨s', hs, hr⟩ := hr
    obtain ⟨w', h'⟩ := h.work hid hf.1 hf.2
    subst hr
    exact ⟨w', h'.nextBlock (toOption_eq_some.mp hs)⟩

end InSync

-- A validator that starts from nothing gets to the same contents.
structure Reproducible (batches : ℕ → Option (UserActionBatch Acc Sign))
    (r : Replica Acc Auth W cfg) : Prop where
  -- The loop over the batches so far ends with the contents of the validator.
  replay : ∃ w, syncBatches r.chain batches (List.range' 1 r.processed) .fresh = (w, none) ∧
    w.stored = r.live ∧ TrieRoot.root w.stored = TrieRoot.root r.live
  -- The whole worker ends with the contents that the worker of the validator ends with.
  worker : r.chain.snapshotNonce + 1 < checkpointBlocks → ∀ agg, agg.userActionBatch = batches →
    (runOnChainValidation r.chain agg .empty).1 = (runOnChainValidation r.chain agg r.live).1

section

variable {batches : ℕ → Option (UserActionBatch Acc Sign)}
  {r : Replica Acc Auth W cfg}

omit [Assets Acc W] [CrossChainGadget Acc W] [CrowdSourceLiquidityMining Acc W]
  [Percent] in
theorem InSync.reproducible (h : InSync batches r bound w)
    (hk : 0 < r.processed) : r.Reproducible batches  where
  replay := ⟨w, h.caughtUp, (h.stored hk).symm, congrArg _ (h.stored hk).symm⟩
  worker := by
    intro hn agg ha
    have hmax : r.chain.snapshotNonce < Word.max 64 :=
      (Nat.lt_of_succ_lt hn).trans (by decide)
    have hw := h.caughtUp
    rw [runOnChainValidation_empty hn h.zero, ha]
    cases h.nonce with
    | inl hp =>
      have hstored : (⟨r.live, r.live.state, r.live.loadStateInfo⟩ : Worker Acc) = w := by
        rw [h.state, h.info, h.stored hk]
      rw [hp, CaughtUp] at hw
      rw [h.runOnChainValidation_eq hmax hp, hw, hstored, ha]
    | inr hp =>
      rw [hp] at hw
      obtain ⟨u, batch, b, hu, hb, hv, hb', hw⟩ := CaughtUp.succ.mp hw
      rw [CaughtUp] at hu
      rw [runOnChainValidation_ahead hmax hp (h.future _ (Nat.lt_succ_self _)), hu, h.stored hk, hw]
      simp only [Ocex.processNext, hb, hv, hb', if_true]

end

variable [Std.TransOrd Acc] [Std.LawfulEqOrd Acc]

-- A chain without snapshots, and a validator without contents.
theorem reproducible_run (batches : ℕ → Option (UserActionBatch Acc Sign))
    (hid : ∀ n batch, batches n = some batch → batch.snapshotId = n)
    (s : State Acc Auth W cfg) (hn : s.snapshotNonce = 0) (hs : ∀ n, s.snapshots n = none)
    (es : List (Event Acc Auth AuthSign Sign))
    (h : Run.Along step (Faithful batches) ⟨s, .empty⟩ es)
    (hk : 0 < (Run.run step ⟨s, .empty⟩ es).processed) :
    (Run.run step ⟨s, .empty⟩ es).Reproducible batches := by
  have hinit : InSync batches (⟨s, .empty⟩ : Replica Acc Auth W cfg)
      s.currentBlockNumber .fresh :=
    ⟨CaughtUp.zero.mpr rfl, rfl, rfl, fun hk => absurd hk (Nat.lt_irrefl 0),
      fun _ hn => absurd hn List.not_mem_nil, .inl hn.symm,
      fun _ hk => absurd hk (Nat.lt_irrefl 0), fun n _ => hs n, hs 0⟩
  obtain ⟨w, hw⟩ : ∃ w, InSync batches (Run.run step ⟨s, .empty⟩ es)
      (Run.run step ⟨s, .empty⟩ es).chain.currentBlockNumber w := by
    refine h.invariant (motive := fun r => ∃ w, InSync batches r r.chain.currentBlockNumber w)
      ⟨.fresh, hinit⟩ fun r e hf hr => ?_
    cases Run.exec_cases step r e with
    | inl hs => exact InSync.step hid hr hf hs
    | inr hs => exact hs.2.symm ▸ hr
  exact hw.reproducible hk

end Replica

end Runs

namespace Mock

attribute [local instance] Decimal.HalfEven.arith percent

instance : OperatorKey Account Sig where
  verify batch key := batch.signature.1 = key

-- The root tells the balances in the native currency and the state info apart.
instance : TrieRoot Account where
  root trie := (List.finRange 8).foldl (fun root account =>
    root * 2 ^ 96 + (trie.state.getBalance account .polkadex).mantissa.toNat)
    ((trie.loadStateInfo.lastBlock * 2 ^ 64 + trie.loadStateInfo.stid) * 2 ^ 64 +
      trie.loadStateInfo.snapshotId)

-- No account has traded, so there are no fees to withdraw.
def noFees : IngressMessages Account → Option (EgressMessages Account)
  | .withdrawTradingFees => some (.tradingFees ∅)
  | _ => none

def batch (id : ℕ) (imports : List ℕ) : UserActionBatch Account Sig where
  actions := imports.map fun blk => .blockImport blk noFees ∅
  stid := id
  snapshotId := id
  signature := (7, .withdrawal ⟨.polkadex, "", 0, none⟩)

def opened : State Account ℕ World config :=
  { State.genesis [7] fun account asset =>
      if account = 2 ∧ asset = .polkadex then 5 * unitBalance else 0 with
    exchangeState := true
    allowlistedToken := {AssetId.polkadex}
    orderbookOperatorPublicKey := some 7 }

def follow : List (Replica.Event Account ℕ AuthSig Sig) → Replica Account ℕ World config :=
  Run.run Replica.step ⟨opened, .empty⟩

def deposit : Replica.Event Account ℕ AuthSig Sig :=
  .call (.deposit 0 2 .polkadex unitBalance)

def snapshotOf (r : Replica Account ℕ World config) : Replica.Event Account ℕ AuthSig Sig :=
  let root := TrieRoot.root r.live
  .call (.submitSnapshot { summary r.processed [] with
    stateHash := root
    lastProcessedBlk := r.live.loadStateInfo.lastBlock } [(0, (7, r.processed, root))])

section Pruned

def importsOne (n : ℕ) : Option (UserActionBatch Account Sig) :=
  if n = 1 then some (batch 1 [1]) else none

def imported : List (Replica.Event Account ℕ AuthSig Sig) :=
  [.call .nextBlock, deposit, .endBlock ⟨importsOne, none⟩]

def pruned : List (Replica.Event Account ℕ AuthSig Sig) :=
  imported ++ [snapshotOf (follow imported)]

-- The deposit was processed by the validator. It is not in the queue anymore when another one catches
-- up.
theorem deposit_lost_in_catch_up :
    (∀ n b, importsOne n = some b → b.snapshotId = n) ∧
    opened.snapshotNonce = 0 ∧ (∀ n, opened.snapshots n = none) ∧
    (follow pruned).processed = 1 ∧ (follow pruned).chain.snapshotNonce = 1 ∧
    ¬(follow pruned).Reproducible importsOne := by
  refine ⟨?id, rfl, fun _ => rfl, by decide +kernel, by decide +kernel, fun h => ?lost⟩
  case id =>
    intro n b hb
    simp only [importsOne] at hb
    split_ifs at hb with hn
    cases hb
    exact hn.symm
  case lost =>
    obtain ⟨w, hw, hs, _⟩ := h.replay
    have hl : ((follow pruned).live.state.getBalance 2 .polkadex).mantissa ≠ 0 := by decide +kernel
    have hr : ((syncBatches (follow pruned).chain importsOne
        (List.range' 1 (follow pruned).processed) .fresh).1.stored.state.getBalance 2
        .polkadex).mantissa = 0 := by decide +kernel
    rw [hw, hs] at hr
    exact hl hr

end Pruned

section Kept

def importsLater (n : ℕ) : Option (UserActionBatch Account Sig) :=
  if n = 1 then some (batch 1 []) else if n = 2 then some (batch 2 [1]) else none

def first (n : ℕ) : Option (UserActionBatch Account Sig) :=
  if n = 1 then some (batch 1 []) else none

def begun : List (Replica.Event Account ℕ AuthSig Sig) :=
  [.endBlock ⟨first, none⟩, deposit]

def kept : List (Replica.Event Account ℕ AuthSig Sig) :=
  begun ++ [snapshotOf (follow begun), .endBlock ⟨importsLater, none⟩]

theorem batches_of_importsLater
    (h : importsLater n = some b) : n = 1 ∧ b = batch 1 [] ∨ n = 2 ∧ b = batch 2 [1] := by
  simp only [importsLater] at h
  split_ifs at h with h₁ h₂
  · exact .inl ⟨h₁, (Option.some.inj h).symm⟩
  · exact .inr ⟨h₂, (Option.some.inj h).symm⟩

def accepted : List (Replica.Event Account ℕ AuthSig Sig) :=
  begun ++ [snapshotOf (follow begun)]

theorem faithful_kept :
    Run.Along Replica.step (Replica.Faithful importsLater) ⟨opened, .empty⟩ kept := by
  intro e he
  simp only [kept, begun, List.cons_append, List.nil_append, Run.trace_cons, Run.trace_nil,
    List.mem_cons, List.not_mem_nil, or_false] at he
  match he with
  | .inl he =>
    subst he
    refine ⟨by decide, fun n b hb => ?_⟩
    simp only [first] at hb
    split_ifs at hb with hn
    cases hb
    exact ⟨by simp [importsLater, hn], nofun⟩
  | .inr (.inl he) =>
    subst he
    exact fun _ => ⟨trivial, fun _ _ _ _ => trivial⟩
  | .inr (.inr (.inl he)) =>
    subst he
    refine fun _ => ⟨⟨rfl, rfl⟩, fun n hn b hb => ?_⟩
    have hone : (follow begun).processed = 1 := by decide +kernel
    have hn : n ∈ List.range' 1 (follow begun).processed := hn
    rw [hone, List.mem_range'_1] at hn
    cases batches_of_importsLater hb with
    | inl hb => exact hb.2 ▸ nofun
    | inr hb => omega
  | .inr (.inr (.inr he)) =>
    subst he
    have hnonce : (follow accepted).chain.snapshotNonce < Word.max 64 := by decide +kernel
    have hblock : (follow accepted).chain.currentBlockNumber = 1 := by decide +kernel
    refine ⟨hnonce, fun n b hb => ⟨hb, fun blk hblk => ?_⟩⟩
    refine Nat.le_trans ?_ hblock.ge
    cases batches_of_importsLater hb with
    | inl hb => simp [hb.2, UserActionBatch.imports, batch] at hblk
    | inr hb =>
      simp [hb.2, UserActionBatch.imports, UserActions.imports, batch] at hblk
      exact hblk.le

-- The first snapshot was accepted, and the deposit is still in the queue.
theorem deposit_kept_for_catch_up :
    (follow kept).processed = 2 ∧ (follow kept).chain.snapshotNonce = 1 ∧
    (follow kept).Reproducible importsLater := by
  have htwo : (follow kept).processed = 2 := by decide +kernel
  refine ⟨htwo, by decide +kernel, Replica.reproducible_run importsLater ?id opened rfl
    (fun _ => rfl) kept faithful_kept (htwo ▸ Nat.two_pos)⟩
  case id =>
    intro n b hb
    cases batches_of_importsLater hb with
    | inl hb => rw [hb.1, hb.2]; rfl
    | inr hb => rw [hb.1, hb.2]; rfl

end Kept

end Mock

end Ocex
