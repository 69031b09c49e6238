import PolkadexModel.Ocex.Theorems.Debits
import PolkadexModel.Ocex.Theorems.Demands
import PolkadexModel.Ocex.Theorems.Egress
import PolkadexModel.Ocex.Theorems.Queue
import PolkadexModel.Ocex.Theorems.Snapshots
import PolkadexModel.Ocex.Theorems.WorkerRuns

open List

namespace Ocex

open Decimal (FaithfulArith)

variable {Acc Auth AuthSign Sign W : Type}

def IngressMessages.isAnswered : IngressMessages Acc → Bool
  | .addLiquidity .. | .removeLiquidity .. | .forceClosePool .. | .withdrawTradingFees => true
  | _ => false

def UserActions.isWithdrawal : UserActions Acc Sign → Bool
  | .withdraw _ | .withdrawV1 .. => true
  | _ => false

variable [Ord Acc] {cfg : Config}

-- The number of messages that an action adds to a summary. An import adds the prices as well.
def UserActions.replies (chain : State Acc Auth W cfg) :
    UserActions Acc Sign → ℕ
  | .blockImport blk _ _ => (chain.ingressMessages blk).toList.countP (·.isAnswered) + 1
  | _ => 0

namespace UserActionBatch

def withdrawals (batch : UserActionBatch Acc Sign) : ℕ :=
  batch.actions.countP (·.isWithdrawal)

def replies (chain : State Acc Auth W cfg)
    (batch : UserActionBatch Acc Sign) : ℕ :=
  (batch.actions.map (·.replies chain)).sum

end UserActionBatch

section Batches

variable [DecidableEq Acc] [PalletAccounts Acc] [Decimal.Arith]

namespace OffchainState

variable {allowlist : Std.TreeSet AssetId}
  {engine : IngressMessages Acc → Option (EgressMessages Acc)}
  {acc acc' : OffchainState Acc × List (EgressMessages Acc)}

omit [Ord Acc] in
theorem length_importMessage (h : importMessage allowlist engine acc m = .ok acc') :
    acc'.2.length = acc.2.length + if m.isAnswered then 1 else 0 := by
  cases m with
  | addLiquidity | removeLiquidity | forceClosePool | withdrawTradingFees =>
    simp only [importMessage, bind_eq_ok, pure_eq_ok] at h
    obtain ⟨_, _, rfl⟩ := h
    simp [IngressMessages.isAnswered]
  | _ =>
    cases h
    simp [IngressMessages.isAnswered]

omit [Ord Acc] in
theorem length_import {queue : List (IngressMessages Acc)}
    (h : queue.foldlM (importMessage allowlist engine) acc = .ok acc') :
    acc'.2.length = acc.2.length + queue.countP (·.isAnswered) := by
  induction queue generalizing acc with
  | nil => rw [foldlM_nil_eq_ok.mp h, countP_nil, add_zero]
  | cons m queue hi =>
    obtain ⟨t, ht, h⟩ := foldlM_cons_eq_ok.mp h
    rw [hi h, length_importMessage ht, countP_cons, add_assoc, add_comm (countP _ _)]

end OffchainState

-- A part of a batch that adds the given numbers of withdrawals, which cost nothing, and of messages.
structure Adds (b : BatchState Acc) (withdrawals replies : ℕ) (b' : BatchState Acc) :
    Prop where
  withdrawals : b'.withdrawals.length = b.withdrawals.length + withdrawals
  egressMessages : b'.egressMessages.length = b.egressMessages.length + replies
  free : (∀ w ∈ b.withdrawals, w.fees = 0) → ∀ w ∈ b'.withdrawals, w.fees = 0

namespace Adds

variable {b b' b'' : BatchState Acc} {n n' k k' : ℕ}

omit [Ord Acc] [DecidableEq Acc] [PalletAccounts Acc] [Decimal.Arith]

theorem trans (h : Adds b n k b') (h' : Adds b' n' k' b'') : Adds b (n + n') (k + k') b'' where
  withdrawals := by rw [h'.withdrawals, h.withdrawals, add_assoc]
  egressMessages := by rw [h'.egressMessages, h.egressMessages, add_assoc]
  free hb := h'.free (h.free hb)

theorem withdrawal {withdrawal : Withdrawal Acc} (hw : withdrawal.fees = 0)
    (state : OffchainState Acc) :
    Adds b 1 0 { b with state := state, withdrawals := b.withdrawals ++ [withdrawal] } where
  withdrawals := length_append
  egressMessages := rfl
  free hb := by
    simp only [forall_mem_append, forall_mem_singleton]
    exact ⟨hb, hw⟩

end Adds

variable [Verify Acc Sign] [FromText] {chain : State Acc Auth W cfg}
  {b b' : BatchState Acc}

omit [Ord Acc] [PalletAccounts Acc] in
theorem fees_of_withdraw {request : WithdrawalRequest Acc Sign}
    (h : Ocex.withdraw request s stid = .ok (s', withdrawal)) : withdrawal.fees = 0 := by
  simp only [Ocex.withdraw] at h
  split at h
  case h_1 => cases h
  case h_2 =>
    simp only [bind_eq_ok] at h
    obtain ⟨_, _, _, _, h⟩ := h
    split at h
    case h_1 => cases h
    case h_2 hw =>
      simp only [WithdrawalRequest.convert, Option.bind_eq_bind, Option.bind_eq_some_iff] at hw
      obtain ⟨_, _, hw⟩ := hw
      cases hw
      cases h
      rfl

theorem adds_processAction {a : UserActions Acc Sign}
    (h : processAction chain b a = .ok b') :
    Adds b (if a.isWithdrawal then 1 else 0) (a.replies chain) b' := by
  cases a with
  | trade =>
    simp only [processAction, bind_eq_ok, pure_eq_ok] at h
    obtain ⟨_, _, rfl⟩ := h
    exact ⟨rfl, rfl, id⟩
  | reset | oneMinLMPReport =>
    cases h
    exact ⟨rfl, rfl, id⟩
  | withdraw | withdrawV1 =>
    simp only [processAction, bind_eq_ok, pure_eq_ok, Prod.exists] at h
    obtain ⟨state, _, hw, rfl⟩ := h
    exact .withdrawal (fees_of_withdraw hw) state
  | blockImport =>
    simp only [processAction, importBlk, bind_eq_ok, pure_eq_ok, Prod.exists,
      Prod.mk.injEq] at h
    obtain ⟨_, _, egress, ⟨_, _, _, _, hl, _, _, rfl⟩, rfl⟩ := h
    have hlen := OffchainState.length_import hl
    refine ⟨rfl, ?_, id⟩
    simp only [length_append, hlen, UserActions.replies, length_nil, length_singleton]
    omega

theorem adds_processActions {actions : List (UserActions Acc Sign)}
    (h : actions.foldlM (processAction chain) b = .ok b') :
    Adds b (actions.countP (·.isWithdrawal)) (actions.map (·.replies chain)).sum b' := by
  induction actions generalizing b with
  | nil => exact foldlM_nil_eq_ok.mp h ▸ ⟨rfl, rfl, id⟩
  | cons a actions hi =>
    obtain ⟨t, ht, h⟩ := foldlM_cons_eq_ok.mp h
    rw [countP_cons, add_comm, map_cons, sum_cons]
    exact (adds_processAction ht).trans (hi h)

-- What a summary takes from the batch which it was made from.
structure SummaryOf (chain : State Acc Auth W cfg)
    (batch : UserActionBatch Acc Sign) (summary : SnapshotSummary Acc) : Prop where
  snapshotId : summary.snapshotId = chain.nextNonce
  validatorSetId : summary.validatorSetId = chain.validatorSetId
  withdrawals : summary.withdrawals.length = batch.withdrawals
  egressMessages : summary.egressMessages.length = batch.replies chain
  free : ∀ w ∈ summary.withdrawals, w.fees = 0
  traderMetrics : summary.traderMetrics = none

variable [OperatorKey Acc Sign] [TrieRoot Acc] {trie : Trie Acc}
  {agg : Aggregator Acc Sign} {summary : SnapshotSummary Acc}
  {batch : UserActionBatch Acc Sign}

theorem summaryOf_processNext (hb : agg.userActionBatch chain.nextNonce = some batch)
    (h : (processNext chain agg.userActionBatch chain.nextNonce w).2 = .ok (.processed summary)) :
    SummaryOf chain batch summary := by
  simp only [processNext, hb] at h
  split_ifs at h
  split at h
  case h_1 => cases h
  case h_2 b hp =>
    simp only [processBatch, bind_eq_ok] at hp
    obtain ⟨_, _, hp⟩ := hp
    have hadds := adds_processActions hp
    cases h
    refine ⟨rfl, rfl, ?_, ?_, hadds.free (by simp), rfl⟩
    · simpa [UserActionBatch.withdrawals] using hadds.withdrawals
    · simpa [UserActionBatch.replies] using hadds.egressMessages

theorem summaryOf_runOnChainValidation (hb : agg.userActionBatch chain.nextNonce = some batch)
    (h : (runOnChainValidation chain agg trie).2 = .ok (.processed summary)) :
    SummaryOf chain batch summary := by
  cases hs : startWorker chain agg trie with
  | none => exact absurd h (runOnChainValidation_of_not_start hs summary)
  | some start =>
    rw [runOnChainValidation_of_start hs] at h
    cases loop chain agg (range' (start.2 + 1) (chain.nextNonce - (start.2 + 1))) start.1 with
    | stopped hl hne =>
      rw [hl] at h
      exact absurd h (hne summary)
    | synced hl =>
      rw [hl] at h
      exact summaryOf_processNext hb h

end Batches

-- Payments of nothing by the account of the exchange, which the other pallets always accept.
class EmptyPayments (Acc W : Type) [PalletAccounts Acc] [Assets Acc W] : Prop where
  burn : ∀ world : W, ∃ world',
    Assets.burnNative world (PalletAccounts.palletAccount : Acc) 0 = some world'
  transfer : ∀ world : W, ∃ world', Assets.transferNative world
    (PalletAccounts.palletAccount : Acc) PalletAccounts.potAccount 0 = .ok world'

namespace State

variable {s : State Acc Auth W cfg}

variable [PalletAccounts Acc] [Assets Acc W] [EmptyPayments Acc W] [FaithfulArith]

theorem exists_settleWithdrawalFee (s : State Acc Auth W cfg) (hf : withdrawal.fees = 0) :
    ∃ s', s.settleWithdrawalFee withdrawal = .ok s' := by
  have hzero : planck withdrawal.fees = 0 := planck_of_nonpos (by rw [hf, Decimal.toRat_zero])
  rw [planck] at hzero
  simp only [settleWithdrawalFee, hzero]
  cases withdrawal.asset with
  | polkadex =>
    obtain ⟨world, hw⟩ : ∃ world', Assets.burnNative s.world
      (PalletAccounts.palletAccount : Acc) 0 = some world' := EmptyPayments.burn s.world
    exact ⟨_, by rw [hw]; rfl⟩
  | asset id =>
    obtain ⟨world, hw⟩ : ∃ world', Assets.transferNative s.world
      (PalletAccounts.palletAccount : Acc) PalletAccounts.potAccount 0 = .ok world' :=
        EmptyPayments.transfer s.world
    exact ⟨_, by rw [hw]; rfl⟩

theorem exists_settleWithdrawalFees (s : State Acc Auth W cfg)
    {withdrawals : List (Withdrawal Acc)} (hf : ∀ w ∈ withdrawals, w.fees = 0) :
    ∃ s', withdrawals.foldlM settleWithdrawalFee s = .ok s' := by
  induction withdrawals generalizing s with
  | nil => exact ⟨s, rfl⟩
  | cons w ws hi =>
    rw [forall_mem_cons] at hf
    obtain ⟨t, ht⟩ := exists_settleWithdrawalFee s hf.1
    obtain ⟨s', hs⟩ := hi t hf.2
    exact ⟨s', foldlM_cons_eq_ok.mpr ⟨t, ht, hs⟩⟩

variable [CrossChainGadget Acc W]

-- The withdrawals of a batch are always executed: a payment that fails does not stop the others.
theorem exists_executeWithdrawals (s : State Acc Auth W cfg) (id : ℕ)
    {withdrawals : List (Withdrawal Acc)} (hf : ∀ w ∈ withdrawals, w.fees = 0) :
    ∃ s', s.executeWithdrawals id withdrawals = .ok s' := by
  simp only [executeWithdrawals]
  split_ifs
  · exact ⟨s, rfl⟩
  · exact exists_settleWithdrawalFees _ hf

omit [EmptyPayments Acc W] in
theorem room_executeWithdrawals {id : ℕ}
    {withdrawals : List (Withdrawal Acc)} (h : s.executeWithdrawals id withdrawals = .ok s') :
    (s'.ingressMessages s'.currentBlockNumber).toList =
      (s.ingressMessages s.currentBlockNumber).toList := by
  simp only [executeWithdrawals] at h
  split_ifs at h
  · cases h
    rfl
  · have hq := (Spends.foldlM .settleWithdrawalFee h).queues
    have hs : (s.settleWithdrawals id withdrawals).ingressMessages = s.ingressMessages :=
      IgnoresPayments.settleWithdrawals (fun _ _ _ _ => rfl) ..
    have hn : (s.settleWithdrawals id withdrawals).currentBlockNumber = s.currentBlockNumber :=
      IgnoresPayments.settleWithdrawals (fun _ _ _ _ => rfl) ..
    rw [hq.ingress, hq.currentBlockNumber, hs, hn]
    simp

variable [CrowdSourceLiquidityMining Acc W] [DecidableEq Acc] [Percent]

theorem submitSnapshot_isOk (hm : summary.traderMetrics = none) (hf : ∀ w ∈ summary.withdrawals, w.fees = 0) :
    (∃ s', s.submitSnapshot summary = .ok s') ↔
      (∃ s', s.processEgressMsg summary.egressMessages = .ok s') ∧
      (s.ingressMessages s.currentBlockNumber).toList.length < cfg.obIngressLimit := by
  simp only [submitSnapshot, hm, updateScores, bind_eq_ok, pure_eq_ok, Except.ok.injEq,
    exists_eq_left']
  have hroom {t u : State Acc Auth W cfg}
      (ht : s.processEgressMsg summary.egressMessages = .ok t)
      (hu : t.executeWithdrawals summary.snapshotId summary.withdrawals = .ok u) :
      (u.ingressMessages u.currentBlockNumber).toList =
        (s.ingressMessages s.currentBlockNumber).toList := by
    have hq := (Spends.processEgressMsg ht).queues
    rw [room_executeWithdrawals hu, hq.ingress, hq.currentBlockNumber]
    simp
  constructor
  · rintro ⟨s', t, ht, u, hu, v, hv, _⟩
    have hlen := (exists_pushIngress_iff _ _).mp ⟨v, hv⟩
    exact ⟨⟨t, ht⟩, hroom ht hu ▸ hlen⟩
  · rintro ⟨⟨t, ht⟩, hlen⟩
    obtain ⟨u, hu⟩ := exists_executeWithdrawals t summary.snapshotId hf
    rw [← hroom ht hu] at hlen
    obtain ⟨v, hv⟩ := (exists_pushIngress_iff { u with
      snapshotNonce := summary.snapshotId
      snapshots := Function.update u.snapshots summary.snapshotId (some summary) }
        .withdrawTradingFees).mpr hlen
    exact ⟨_, t, ht, u, hu, v, hv, rfl⟩

variable [Authority Acc Auth AuthSign]

-- The signatures of a majority of the active authorities.
structure Signed (s : State Acc Auth W cfg) (summary : SnapshotSummary Acc)
    (signatures : List (ℕ × AuthSign)) : Prop where
  nonempty : s.activeAuthorities ≠ []
  required : requiredSignatures s.activeAuthorities ≤ signatures.length
  nodup : (signatures.map Prod.fst).Nodup
  valid : ∀ signature ∈ signatures, ValidSignature s.activeAuthorities summary signature

end State

section Submission

variable [PalletAccounts Acc] [Assets Acc W] [CrowdSourceLiquidityMining Acc W]
  [FaithfulArith] [Percent]

-- What it takes to execute the summary of a batch in the state `later` of the chain.
structure Executable (chain later : State Acc Auth W cfg)
    (batch : UserActionBatch Acc Sign) (summary : SnapshotSummary Acc) : Prop where
  -- The number of withdrawals is cut to 32 bits.
  withdrawals : batch.withdrawals % 2 ^ 32 ≤ cfg.obWithdrawalLimit
  replies : batch.replies chain ≤ cfg.maxEgressMessages
  room : (later.ingressMessages later.currentBlockNumber).toList.length < cfg.obIngressLimit
  nonneg : ∀ msg ∈ summary.egressMessages, ∀ e ∈ msg.payouts, 0 ≤ e.2
  met : ∃ world, Demand.meetAll later.world
    (summary.egressMessages.flatMap (·.demands later.feeDistributionConfig)) = some world

variable [DecidableEq Acc] [EmptyPayments Acc W] [CrossChainGadget Acc W]
  [Authority Acc Auth AuthSign] [Verify Acc Sign] [FromText]
  [OperatorKey Acc Sign] [TrieRoot Acc]

end Submission

namespace Mock

attribute [local instance] Decimal.HalfEven.faithfulArith percent custody

theorem emptyPayments : EmptyPayments Account World where
  burn _ := ⟨_, rfl⟩
  transfer _ := ⟨_, rfl⟩

attribute [local instance] emptyPayments

def smallExchangeCalls : List (Call Account ℕ AuthSig) :=
  [.setExchangeState true, .allowlistToken .polkadex, .whitelistOrderbookOperator 7, .nextBlock,
    .deposit 0 2 .polkadex unitBalance]

def smallExchange : State Account ℕ World config :=
  Run.run step (.genesis [7] fun account _ => if account = 2 then unitBalance else 0)
    smallExchangeCalls

def smallRequest (timestamp : ℕ) : WithdrawalRequest Account Sig where
  id := timestamp
  signature := (2, .withdrawal ⟨.polkadex, "0.01", timestamp, none⟩)
  payload := ⟨.polkadex, "0.01", timestamp, none⟩
  main := 2
  proxy := 2

-- The deposit is imported, and then withdrawn in `n` small parts.
def smallWithdrawals (n : ℕ) : UserActionBatch Account Sig where
  actions := .blockImport 1 noFees ∅ :: (List.range n).map fun i => .withdraw (smallRequest i)
  stid := 1
  snapshotId := 1
  signature := (7, .withdrawal ⟨.polkadex, "", 0, none⟩)

def servesWithdrawals (n : ℕ) : Aggregator Account Sig where
  userActionBatch nonce := if nonce = 1 then some (smallWithdrawals n) else none
  checkpoint := none

end Mock

end Ocex
