import PolkadexModel.Lib.DecimalArith
import PolkadexModel.Ocex.Theorems.Withdrawals

open Function Std.TreeMap

namespace Ocex

open State

variable {Acc Auth AuthSign W : Type} [Ord Acc] [DecidableEq Acc]
  {cfg : Config}

def Ledger.pending (l : Ledger Acc) (id : ℕ) (account : Acc) :
    List (Withdrawal Acc) :=
  (l.withdrawals id).elim [] fun map => WithdrawalsMap.due map account

def requested (summaries : List (SnapshotSummary Acc)) (id : ℕ) (account : Acc) :
    List (Withdrawal Acc) :=
  (summaries.filter fun summary => summary.snapshotId = id).flatMap fun summary =>
    summary.withdrawals.filter fun withdrawal => withdrawal.mainAccount = account

-- Every requested withdrawal is either paid or pending, as often as it was requested, and nothing
-- else is. There are no empty entries.
structure Ledger.ExactlyOnce (l : Ledger Acc) (summaries : List (SnapshotSummary Acc)) :
    Prop where
  once : ∀ id account,
    (paid l.claimed id account ++ l.pending id account).Perm (requested summaries id account)
  nonempty : ∀ id map, l.withdrawals id = some map → ¬map.isEmpty ∧ WithdrawalsMap.Proper map

namespace Ledger

-- The ledger after withdrawals of a snapshot were tried: the claims `claims` were paid, and what is
-- pending is kept in `map`.
def put (l : Ledger Acc) (id : ℕ) (map : WithdrawalsMap Acc)
    (claims : List (ℕ × Acc × List (Withdrawal Acc))) : Ledger Acc :=
  { l with
    withdrawals := update l.withdrawals id (if map.isEmpty then none else some map)
    claimed := l.claimed ++ claims }

def accept (l : Ledger Acc) (id : ℕ) (map : WithdrawalsMap Acc)
    (claims : List (ℕ × Acc × List (Withdrawal Acc))) : Ledger Acc where
  withdrawals := if map.isEmpty then l.withdrawals else update l.withdrawals id (some map)
  snapshotNonce := id
  claimed := l.claimed ++ claims

-- The invariant of the runs. Nothing is pending for the snapshots to come.
structure Settled (l : Ledger Acc) (summaries : List (SnapshotSummary Acc)) : Prop where
  once : l.ExactlyOnce summaries
  future : ∀ id ≤ Word.max 64, l.snapshotNonce < id → l.withdrawals id = none

variable {l : Ledger Acc} {id : ℕ} {map : WithdrawalsMap Acc}
  {claims : List (ℕ × Acc × List (Withdrawal Acc))}
  {summaries summaries' : List (SnapshotSummary Acc)}

theorem requested_append (summaries : List (SnapshotSummary Acc))
    (summary : SnapshotSummary Acc) (id : ℕ) (account : Acc) :
    requested (summaries ++ [summary]) id account = requested summaries id account ++
      if summary.snapshotId = id
      then summary.withdrawals.filter fun withdrawal => withdrawal.mainAccount = account else [] := by
  by_cases h : summary.snapshotId = id <;> simp [requested, h]

omit [DecidableEq Acc] in
theorem withdrawals_put_of_ne (h : id' ≠ id) : (l.put id map claims).withdrawals id' = l.withdrawals id' :=
  update_of_ne h ..

omit [DecidableEq Acc] in
theorem withdrawals_accept_of_ne (h : id' ≠ id) :
    (l.accept id map claims).withdrawals id' = l.withdrawals id' := by
  simp only [accept]
  split_ifs
  · rfl
  · exact update_of_ne h ..

omit [DecidableEq Acc] in
theorem pending_put_of_ne (h : id' ≠ id) (account : Acc) :
    (l.put id map claims).pending id' account = l.pending id' account := by
  simp [pending, withdrawals_put_of_ne h]

omit [DecidableEq Acc] in
theorem pending_put_self [Std.TransOrd Acc] (account : Acc) :
    (l.put id map claims).pending id account = map.due account := by
  simp only [pending, put, update_self]
  split_ifs with h
  · have hm := isEmpty_iff_forall_not_mem.mp h account
    simp [WithdrawalsMap.due, getElem?_eq_none hm]
  · rfl

namespace ExactlyOnce

variable [Std.TransOrd Acc]

theorem put (h : l.ExactlyOnce summaries) (hp : map.Proper)
    (rest : ∀ id' account, id' ≠ id → paid claims id' account = [] ∧
      requested summaries' id' account = requested summaries id' account)
    (same : ∀ account, (paid l.claimed id account ++ paid claims id account ++ map.due account).Perm
      (requested summaries' id account)) : (l.put id map claims).ExactlyOnce summaries' := by
  refine ⟨?once, ?nonempty⟩
  case once =>
    intro id' account
    have hc : (l.put id map claims).claimed = l.claimed ++ claims := rfl
    rw [hc, paid_append]
    by_cases hi : id' = id
    · rw [hi, pending_put_self]
      exact same account
    · obtain ⟨hc, hr⟩ := rest id' account hi
      rw [pending_put_of_ne hi, hc, hr, List.append_nil]
      exact h.once id' account
  case nonempty =>
    intro id' m hm
    simp only [Ledger.put] at hm
    by_cases hi : id' = id
    · rw [hi, update_self] at hm
      split_ifs at hm with he
      cases hm
      exact ⟨he, hp⟩
    · rw [update_of_ne hi] at hm
      exact h.nonempty id' m hm

theorem settle (h : l.ExactlyOnce summaries) (hn : l.withdrawals summary.snapshotId = none)
    (hs : Settlement summary.snapshotId summary.withdrawals claims map) :
    (l.put summary.snapshotId map claims).ExactlyOnce (summaries ++ [summary]) := by
  refine h.put hs.proper (fun id' account hi => ⟨hs.rest id' account hi, ?rest⟩) fun account => ?same
  case rest => simp [requested_append, hi.symm]
  case same =>
    have ho := h.once summary.snapshotId account
    rw [Ledger.pending, hn, Option.elim_none, List.append_nil] at ho
    rw [requested_append, if_pos rfl, List.append_assoc]
    exact ho.append (hs.split account)

theorem retry [Std.LawfulEqOrd Acc] {withdrawals failed processed : List (Withdrawal Acc)}
    (h : l.ExactlyOnce summaries) (hm : l.withdrawals id = some map)
    (ha : map[account]? = some withdrawals) (hp : (processed ++ failed).Perm withdrawals) :
    (l.put id (keepFailed (map.erase account) account failed)
      (claim id account processed)).ExactlyOnce summaries := by
  have hproper : WithdrawalsMap.Proper (map.erase account) := by
    intro other
    rw [getElem?_erase]
    split_ifs
    · simp
    · exact (h.nonempty id map hm).2 other
  refine h.put (hproper.keepFailed account failed) (fun id' other hi => ⟨?rest, rfl⟩)
    fun other => ?same
  case rest => simp [paid_claim, hi.symm]
  case same =>
    have ho := h.once id other
    rw [Ledger.pending, hm, Option.elim_some] at ho
    rw [paid_claim, due_keepFailed getElem?_erase_self]
    by_cases hother : account = other
    · have hdue : map.due other = withdrawals := by simp [WithdrawalsMap.due, ← hother, ha]
      rw [hdue] at ho
      simpa [hother] using (hp.append_left _).trans ho
    · have hdue : WithdrawalsMap.due (map.erase account) other = map.due other := by
        simp [WithdrawalsMap.due, getElem?_erase, hother]
      simpa [hother, hdue] using ho

end ExactlyOnce

namespace Settled

variable [Std.TransOrd Acc]

omit [Std.TransOrd Acc] in
theorem withdrawals_next (h : l.Settled summaries)
    (hw : l.snapshotNonce < Word.max 64 ∨ l.withdrawals (Word.max 64) = none) :
    l.withdrawals (Word.saturatingAdd 64 l.snapshotNonce 1) = none := by
  by_cases hn : l.snapshotNonce < Word.max 64
  · rw [Word.lt_saturatingAdd_one hn]
    exact h.future _ hn (Nat.lt_succ_self _)
  · have hmax : Word.saturatingAdd 64 l.snapshotNonce 1 = Word.max 64 :=
      Nat.min_eq_right (by omega)
    exact hmax ▸ hw.resolve_left hn

theorem accept (h : l.Settled summaries)
    (hw : l.snapshotNonce < Word.max 64 ∨ l.withdrawals (Word.max 64) = none)
    (hid : Word.saturatingAdd 64 l.snapshotNonce 1 = summary.snapshotId)
    (hs : Settlement summary.snapshotId summary.withdrawals claims map) :
    (l.accept summary.snapshotId map claims).Settled (summaries ++ [summary]) := by
  have hn : l.withdrawals summary.snapshotId = none := hid ▸ h.withdrawals_next hw
  have hput : (l.accept summary.snapshotId map claims).withdrawals =
      (l.put summary.snapshotId map claims).withdrawals := by
    simp only [Ledger.accept, Ledger.put]
    split_ifs
    · rw [← hn, update_eq_self]
    · rfl
  have ho := h.once.settle hn hs
  refine ⟨⟨?once, ?nonempty⟩, fun id hle hi => ?future⟩
  case once =>
    intro id account
    rw [Ledger.pending, hput]
    exact ho.once id account
  case nonempty => exact hput ▸ ho.nonempty
  case future =>
    have hi : summary.snapshotId < id := hi
    have hlt : l.snapshotNonce < id := by
      simp only [Word.saturatingAdd] at hid
      omega
    rw [hput]
    simp only [Ledger.put, update_of_ne hi.ne']
    exact h.future id hle hlt

theorem retry [Std.LawfulEqOrd Acc]
    {withdrawals failed processed : List (Withdrawal Acc)} (h : l.Settled summaries)
    (hm : l.withdrawals id = some map) (ha : map[account]? = some withdrawals)
    (hp : (processed ++ failed).Perm withdrawals) : (l.put id (keepFailed (map.erase account) account failed)
      (claim id account processed)).Settled summaries := by
  refine ⟨h.once.retry hm ha hp, fun id' hle hi => ?_⟩
  have hnone := h.future id' hle hi
  have hne : id' ≠ id := by
    intro he
    simp [← he, hnone] at hm
  simp [put, update_of_ne hne, hnone]

end Settled

end Ledger

section Validation

variable [Percent] [Authority Acc Auth AuthSign]
  {s : State Acc Auth W cfg}

omit [DecidableEq Acc] in
theorem State.snapshotId_of_validateSnapshot {signatures : List (ℕ × AuthSign)}
    (h : s.validateSnapshot summary signatures = .ok u) :
    Word.saturatingAdd 64 s.snapshotNonce 1 = summary.snapshotId := by
  by_contra hne
  simp [validateSnapshot, hne] at h

end Validation

section Runs

variable [PalletAccounts Acc] [Assets Acc W] [CrossChainGadget Acc W]
  [CrowdSourceLiquidityMining Acc W] [Percent]
  [Authority Acc Auth AuthSign] [Decimal.Arith]
  [Std.TransOrd Acc] [Std.LawfulEqOrd Acc]
  {s s' : State Acc Auth W cfg}

namespace State

omit [CrowdSourceLiquidityMining Acc W] [Percent] in
theorem executeWithdrawals_eq_ok {id : ℕ} {withdrawals : List (Withdrawal Acc)}
    (h : s.executeWithdrawals id withdrawals = .ok s') : ∃ claims map,
      Settlement id withdrawals claims map ∧
      s'.view = { s.view with
        withdrawals := if map.isEmpty then s.view.withdrawals
          else update s.view.withdrawals id (some map)
        claimed := s.view.claimed ++ claims } ∧
      ∀ n ≠ s.currentBlockNumber, s'.ingressMessages n = s.ingressMessages n := by
  simp only [executeWithdrawals] at h
  split_ifs at h with hw
  · refine ⟨[], ∅, ⟨fun account => by simp, fun _ _ _ => rfl, fun account => ?_⟩, ?_, fun _ _ => ?_⟩
    · simp [List.isEmpty_iff.mp hw, WithdrawalsMap.due]
    · simp [← Except.ok.inj h]
    · rw [← Except.ok.inj h]
  · obtain ⟨t, claims, map, hp, hs, he⟩ := settlement_settleWithdrawals s id withdrawals
    have hb : t.currentBlockNumber = s.currentBlockNumber := congrArg View.currentBlockNumber hp.view
    have hf := (Spends.foldlM .settleWithdrawalFee h).queues.frame
    refine ⟨claims, map, hs, ?view, fun n hn => ?ingress⟩
    all_goals rw [he] at hf
    case view =>
      rw [hf.view]
      split_ifs
      · exact hp.view
      · exact hp.view_update id (some map)
    case ingress =>
      rw [← hp.ingress n hn, hf.ingress n (by split_ifs <;> exact hb ▸ hn)]
      split_ifs <;> rfl

theorem submitSnapshot_eq_ok {summary : SnapshotSummary Acc}
    (h : s.submitSnapshot summary = .ok s') : ∃ claims map,
      Settlement summary.snapshotId summary.withdrawals claims map ∧
      s'.view = { s.view with
        toLedger := s.ledger.accept summary.snapshotId map claims
        snapshots := update s.view.snapshots summary.snapshotId (some summary) } ∧
      ∀ n ≠ s.currentBlockNumber, s'.ingressMessages n =
        if n ≤ summary.lastProcessedBlk then default else s.ingressMessages n := by
  simp only [submitSnapshot, bind_eq_ok, pure_eq_ok] at h
  obtain ⟨s₁, h₁, s₂, h₂, s₃, h₃, s₄, h₄, hs'⟩ := h
  have hf := ((scores_updateScores h₁).queues.trans (Spends.processEgressMsg h₂).queues).frame
  obtain ⟨claims, map, hs, hv, hi⟩ := executeWithdrawals_eq_ok h₃
  have hp := (Queues.pushIngress h₄).frame
  have hb : s₃.currentBlockNumber = s.currentBlockNumber := by
    have hv := congrArg View.currentBlockNumber hv
    exact hv.trans hf.currentBlockNumber
  have hq : Frame (s₄.pruneIngress summary.lastProcessedBlk) s' :=
    hs' ▸ .depositEvent rfl rfl fun _ _ => rfl
  refine ⟨claims, map, hs, ?view, fun n hn => ?ingress⟩
  case view =>
    calc s'.view
      _ = s₄.view := hq.view
      _ = { s₃.view with
            snapshotNonce := summary.snapshotId
            snapshots := update s₃.view.snapshots summary.snapshotId (some summary) } := hp.view
      _ = _ := by rw [hv, hf.view]; rfl
  case ingress =>
    have hn₃ : n ≠ s₃.currentBlockNumber := hb ▸ hn
    have hn₄ : n ≠ s₄.currentBlockNumber := hp.currentBlockNumber ▸ hn₃
    rw [hq.ingress n hn₄, ← hf.ingress n hn, ← hi n (hf.currentBlockNumber ▸ hn)]
    simp only [pruneIngress]
    rw [hp.ingress n hn₃]

omit [DecidableEq Acc] [CrowdSourceLiquidityMining Acc W] [Percent]
  [Std.TransOrd Acc] [Std.LawfulEqOrd Acc] in
theorem claimWithdraw_eq_ok {id : ℕ} {account : Acc} (h : s.claimWithdraw id account = .ok s') :
    ∃ map withdrawals failed processed, s.withdrawals id = some map ∧
      map[account]? = some withdrawals ∧ (processed ++ failed).Perm withdrawals ∧
      s'.view = { s.view with
        toLedger := s.ledger.put id (keepFailed (map.erase account) account failed)
          (claim id account processed) } ∧
      ∀ n ≠ s.currentBlockNumber, s'.ingressMessages n = s.ingressMessages n := by
  simp only [claimWithdraw, bind_eq_ok, pure_eq_ok, orElse_eq_ok] at h
  obtain ⟨map, hm, withdrawals, hw, hs⟩ := h
  have ha := Attempt.doWithdraw s id withdrawals
  have hp := Payout.depositClaimed ha id account
  exact ⟨map, withdrawals, _, _, hm, hw, ha.split, hs ▸ hp.view_update id _, hs ▸ hp.ingress⟩

-- The snapshots are numbered below the maximum of their numbers, or the withdrawals of the last number
-- were all paid. Governance does not set the number of the last snapshot.
def WithinNonces (s : State Acc Auth W cfg) :
    Call Acc Auth AuthSign → Prop
  | .submitSnapshot _ _ => s.snapshotNonce < Word.max 64 ∨ s.withdrawals (Word.max 64) = none
  | .setSnapshot _ | .forceSubmitSnapshot _ => False
  | _ => True

def acceptedBy (s : State Acc Auth W cfg) :
    Call Acc Auth AuthSign → Option (SnapshotSummary Acc)
  | .submitSnapshot summary signatures =>
    if (step s (.submitSnapshot summary signatures)).isSome then some summary else none
  | _ => none

def accepted (s : State Acc Auth W cfg)
    (calls : List (Call Acc Auth AuthSign)) : List (SnapshotSummary Acc) :=
  (Run.trace step s calls).filterMap fun e => acceptedBy e.1 e.2

variable {c : Call Acc Auth AuthSign}

omit [Std.TransOrd Acc] [Std.LawfulEqOrd Acc] in
theorem accepted_append (s : State Acc Auth W cfg)
    (calls : List (Call Acc Auth AuthSign)) :
    accepted s (calls ++ [c]) =
      accepted s calls ++ (acceptedBy (Run.run step s calls) c).toList := by
  simp only [accepted, Run.trace_append, List.filterMap_append]
  cases hc : acceptedBy (Run.run step s calls) c <;> simp [hc]

omit [Std.TransOrd Acc] [Std.LawfulEqOrd Acc] in
theorem ledger_of_dispatch (hclaim : ∀ id account, c ≠ .claimWithdraw id account)
    (hsubmit : ∀ summary signatures, c ≠ .submitSnapshot summary signatures)
    (hset : ∀ id, c ≠ .setSnapshot id) (hforce : ∀ summary, c ≠ .forceSubmitSnapshot summary)
    (h : dispatch s c = .ok s') : s'.ledger = s.ledger := by
  obtain ⟨t, ht, hf⟩ := sets_of_dispatch hclaim hsubmit h
  exact (congrArg View.toLedger hf.view).trans (ht.history hset hforce).1

theorem settled_of_dispatch
    (h : s.ledger.Settled summaries) (hc : WithinNonces s c) (hd : dispatch s c = .ok s') :
    s'.ledger.Settled (summaries ++ (acceptedBy s c).toList) := by
  cases c with
  | claimWithdraw id account =>
    obtain ⟨map, _, _, _, hm, hw, hp, hv, _⟩ := claimWithdraw_eq_ok hd
    have hl : s'.ledger = s.ledger.put id _ _ := congrArg View.toLedger hv
    simpa [acceptedBy, hl] using h.retry hm hw hp
  | submitSnapshot summary signatures =>
    have hacc : acceptedBy s (.submitSnapshot summary signatures) = some summary := by
      simp [acceptedBy, step, hd, Except.toOption]
    simp only [dispatch, bind_eq_ok] at hd
    obtain ⟨_, hvalid, hd⟩ := hd
    have hid := snapshotId_of_validateSnapshot hvalid
    obtain ⟨claims, map, hs, hv, _⟩ := submitSnapshot_eq_ok hd
    have hl : s'.ledger = s.ledger.accept summary.snapshotId map claims := congrArg View.toLedger hv
    rw [hacc, hl]
    exact h.accept hc hid hs
  | setSnapshot | forceSubmitSnapshot => exact hc.elim
  | _ =>
    have hl := ledger_of_dispatch (by simp) (by simp) (by simp) (by simp) hd
    simpa [acceptedBy, hl] using h

omit [Std.TransOrd Acc] [Std.LawfulEqOrd Acc] in
theorem acceptedBy_of_error (h : dispatch s c = .error e) : acceptedBy s c = none := by
  cases c with
  | submitSnapshot => simp [acceptedBy, step, h, Except.toOption]
  | _ => rfl

theorem settled_run {calls : List (Call Acc Auth AuthSign)}
    (h : Run.Along step WithinNonces s calls) (hs : s.ledger.Settled []) :
    (Run.run step s calls).ledger.Settled (accepted s calls) := by
  refine h.induction (motive := fun calls s' => s'.ledger.Settled (accepted s calls)) hs ?snoc
  case snoc =>
    intro calls c h hi
    rw [accepted_append]
    cases hd : dispatch (Run.run step s calls) c with
    | ok s' =>
      have hstep : step (Run.run step s calls) c = some s' := by simp [step, hd, Except.toOption]
      rw [Run.exec_of_some hstep]
      exact settled_of_dispatch hi h.last hd
    | error e =>
      rw [Run.exec_of_none (by simp [step, hd, Except.toOption]), acceptedBy_of_error hd]
      simpa using hi

-- Every withdrawal of an accepted snapshot is at any time either paid or pending.
theorem withdrawals_exactly_once (s : State Acc Auth W cfg)
    (hw : ∀ id, s.withdrawals id = none) (hc : s.ledger.claimed = [])
    (calls : List (Call Acc Auth AuthSign))
    (h : Run.Along step WithinNonces s calls) :
    (Run.run step s calls).ledger.ExactlyOnce (accepted s calls) := by
  have hn : ∀ id, s.ledger.withdrawals id = none := hw
  refine (settled_run h ⟨⟨?once, ?nonempty⟩, fun id _ _ => hw id⟩).once
  case once => simp [hc, Ledger.pending, hn, requested]
  case nonempty => simp [hn]

end State

end Runs

namespace Mock

attribute [local instance] Decimal.HalfEven.arith percent

def withdrawal (id : ℕ) : Withdrawal Account where
  id := id
  mainAccount := 2
  amount := 1
  asset := .polkadex
  fees := 0
  stid := 0
  destination := none

def summary (id : ℕ) (withdrawals : List (Withdrawal Account)) : SnapshotSummary Account where
  validatorSetId := 0
  snapshotId := id
  stateHash := 0
  stateChangeId := 0
  lastProcessedBlk := 0
  withdrawals := withdrawals
  egressMessages := []
  traderMetrics := none

def submit (id : ℕ) (withdrawals : List (Withdrawal Account)) : Call Account ℕ AuthSig :=
  .submitSnapshot (summary id withdrawals) [(0, (7, id, 0))]

def start (nonce custody : ℕ) : State Account ℕ World config :=
  { State.genesis [7] fun account asset =>
      if account = 0 ∧ asset = .polkadex then custody * unitBalance else 0 with
    snapshotNonce := nonce }

def retried : List (Call Account ℕ AuthSig) :=
  [submit 1 [withdrawal 0, withdrawal 1], .claimWithdraw 1 2]

-- The custody account can pay one of two withdrawals.
theorem one_of_two_is_pending :
    (Run.run step (start 0 1) retried).ledger.ExactlyOnce (State.accepted (start 0 1) retried) ∧
    paid (Run.run step (start 0 1) retried).ledger.claimed 1 2 = [withdrawal 1] ∧
    (Run.run step (start 0 1) retried).ledger.pending 1 2 = [withdrawal 0] := by
  refine ⟨State.withdrawals_exactly_once (start 0 1) (fun _ => rfl) rfl _ ?along, ?paid, ?pending⟩
  case along =>
    intro e he
    simp only [retried, Run.trace_cons, Run.trace_nil, List.mem_cons, List.not_mem_nil, or_false] at he
    cases he with
    | inl he => exact he ▸ Or.inl (by decide)
    | inr he => exact he ▸ trivial
  case paid => decide +kernel
  case pending => decide +kernel

def lastNumberTwice : List (Call Account ℕ AuthSig) :=
  [submit (2 ^ 64 - 1) [withdrawal 0], submit (2 ^ 64 - 1) [withdrawal 1]]

-- The last number is used by two snapshots, and the first withdrawal is neither paid nor pending.
theorem overwritten_at_last_nonce :
    (∀ id, (start (2 ^ 64 - 2) 0).withdrawals id = none) ∧
    (start (2 ^ 64 - 2) 0).ledger.claimed = [] ∧
    ¬(Run.run step (start (2 ^ 64 - 2) 0) lastNumberTwice).ledger.ExactlyOnce
      (State.accepted (start (2 ^ 64 - 2) 0) lastNumberTwice) := by
  refine ⟨fun _ => rfl, rfl, fun h => ?_⟩
  have hl := (h.once (2 ^ 64 - 1) 2).length_eq
  revert hl
  decide +kernel

end Mock

end Ocex
